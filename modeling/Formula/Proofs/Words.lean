import Formula.Proofs.Spelling

/-!
# Words

Behind a constant, a unary token or a binary one that is a word, only what follows is looked at. That no
such token is found at the end of a word is a fact about all that has been read before: a buffer starts
behind a token or a bracket, and a token that ends with a letter or a digit is a word itself and ends
before another character.
-/

namespace Formula

variable {m : Type → Type} {C : Type}

/-! ## Tokens -/

/-- Whether a token is a word or contains no letter and no digit. -/
def Unmixed (token : List Char) : Prop :=
  isWord token ∨ ∀ c ∈ token, c.isAlphanum = false

instance : DecidablePred Unmixed := fun token =>
  decidable_of_iff (isWord token || token.all fun c => !c.isAlphanum) (by simp [Unmixed])

theorem Unmixed.isWord {token : List Char} (unmixed : Unmixed token) {c : Char} (member : c ∈ token)
    (letter : c.isAlphanum) : isWord token := by
  rcases unmixed with word | none
  · exact word
  · rw [none c member] at letter
    cases letter

theorem head?_of_isWord {token : List Char} (word : isWord token) (behind : List Char) :
    (token ++ behind).head?.any Char.isAlphanum := by
  cases token with
  | nil => cases word
  | cons c rest =>
    simp only [isWord, List.isEmpty_cons, Bool.not_false, Bool.true_and, List.all_cons,
      Bool.and_eq_true] at word
    exact word.1

theorem any_isAlphanum_of_blank {c : Option Char} (blank : c.any isBlank) :
    c.any Char.isAlphanum = false := by
  cases c with
  | none => rfl
  | some c => exact isAlphanum_of_isBlank blank

structure Vocabulary.Unmixed (v : Vocabulary m C) : Prop where
  binary : ∀ op ∈ v.binary, Formula.Unmixed op.token.toList
  unary : ∀ op ∈ v.unary, Formula.Unmixed op.token.toList
  constants : ∀ op ∈ v.constants, Formula.Unmixed op.token.toList

/-! ## What is found in a text -/

/-- An operator that is recognized in a text. -/
structure Find (m : Type → Type) (C : Type) where
  op : Operator m C
  /-- Whether it is recognized as a binary operator. -/
  joins : Bool
  /-- Where its token starts. -/
  start : Nat

def Stop.operator? : Stop m C → Option (Operator m C)
  | .constant entry | .binary entry => some entry.op
  | .opening | .closing | .ending => none

def Stop.joins : Stop m C → Bool
  | .binary _ => true
  | .constant _ | .opening | .closing | .ending => false

namespace Phrase

/-- The operators of a phrase as they are written. -/
def operators (p : Phrase m C) : List (Operator m C) :=
  p.unary ++ p.stop.operator?.toList

def find? (p : Phrase m C) : Option (Find m C) :=
  p.stop.operator?.map fun op => ⟨op, p.stop.joins, p.stopStart⟩

end Phrase

namespace Scan

/-- The unary operator that a character completes. -/
def find? (g : Grammar m C) (s : Scan m C) (c : Char) (rest : List Char) : Option (Find m C) :=
  match mark g s.closed s.buffer c rest with
  | .unary entry =>
    some ⟨entry.op, false, s.start + byteLength ((c :: s.buffer).reverse.takeWhile isBlank)⟩
  | _ => none

/-- The operators that are recognized in the rest of a text. -/
def finds (g : Grammar m C) : Scan m C → List Char → List (Find m C)
  | _, [] => []
  | s, c :: rest =>
    match s.step g c rest with
    | .more next => (s.find? g c rest).toList ++ finds g next rest
    | .found p => p.find?.toList ++ finds g (after p) rest

/-- What is found are the operators of the phrases. -/
theorem finds_operators (g : Grammar m C) (text : List Char) (s : Scan m C) :
    s.unary.reverse ++ (s.finds g text).map Find.op = (s.phrases g text).flatMap Phrase.operators := by
  induction text generalizing s with
  | nil => simp [finds, phrases, Phrase.operators, finish, phrase, Stop.operator?]
  | cons c rest ih =>
    rw [finds, phrases, step_eq_act]
    cases acted : s.act c (mark g s.closed s.buffer c rest) with
    | more next =>
      dsimp only
      rw [← ih next, List.map_append, ← List.append_assoc]
      congr 1
      cases moves_of_more acted with
      | unary entry marked | nothing marked => simp [find?, marked]
    | found p =>
      have unary := (step_found ((step_eq_act ..).trans acted)).1
      have later : (finds g (startingAt p.stop.closes p.next) rest).map Find.op = _ :=
        ih (startingAt p.stop.closes p.next)
      dsimp only
      rw [List.flatMap_cons, after_eq, ← later, Phrase.operators, unary, List.map_append,
        List.append_assoc]
      congr 2
      rw [Phrase.find?]
      cases p.stop.operator? <;> rfl

end Scan

/-- Whether an operator stands in a text where it has been found, and, if its token is a word, neither
behind nor before a letter or a digit; a binary one between blanks. -/
def Find.StandsApart (f : Find m C) (text : List Char) : Prop :=
  ∃ before behind, text = before ++ (f.op.token.toList ++ behind) ∧ byteLength before = f.start ∧
    (isWord f.op.token.toList →
      before.getLast?.any Char.isAlphanum = false ∧ behind.head?.any Char.isAlphanum = false ∧
        (f.joins → before.getLast?.any isBlank ∧ behind.head?.any isBlank))

namespace Scan

/-- What is passed of a text does not end in the middle of a word, if an operand can follow. -/
structure Detached (s : Scan m C) (passed rest : List Char) : Prop where
  place : s.start = byteLength passed
  apart : s.closed = false → passed.getLast?.any Char.isAlphanum →
    (s.buffer.reverse ++ rest).head?.any Char.isAlphanum = false

theorem detached_startingAt (text : List Char) : (startingAt false 0 : Scan m C).Detached [] text :=
  ⟨rfl, fun _ => nofun⟩

section

variable {ops : List (Operator m C)} {s next : Scan m C} {c : Char} {passed rest : List Char}
  {entry : Entry m C}

/-- A constant or a unary token is the buffer without the blanks around it. -/
theorem exists_blanks_of_whole (member : entry ∈ Entry.table ops)
    (found : whole? .wordsOnly (Entry.table ops) (candidate s.closed (c :: s.buffer)) rest = some entry) :
    s.closed = false ∧ entry.token ≠ [] ∧ ∃ blanks,
      s.buffer.reverse ++ [c] =
        (c :: s.buffer).reverse.takeWhile isBlank ++ (entry.token ++ blanks) ∧
      (∀ d ∈ blanks, isBlank d) ∧
      (isWord entry.token → (blanks ++ rest).head?.any Char.isAlphanum = false) := by
  obtain ⟨_, token, some⟩ := whole?_eq_some found
  have front : s.closed = false := by
    cases closed : s.closed with
    | false => rfl
    | true =>
      rw [closed] at some
      exact absurd rfl some
  obtain ⟨blanks, split, blank⟩ := exists_trim_behind (c :: s.buffer).reverse
  have whole : entry.token = trim (c :: s.buffer).reverse := by
    rw [token, candidate, front]
    rfl
  refine ⟨front, token ▸ some, blanks, ?_, blank, fun word => ?_⟩
  · rw [whole, ← split, List.reverse_cons]
  · cases blanks with
    | cons first others =>
      exact isAlphanum_of_isBlank (blank first (List.mem_cons_self ..))
    | nil =>
      unfold whole? at found
      rw [if_neg some] at found
      have test := List.find?_some found
      rw [Entry.word_of_mem_table member, word] at test
      simpa [Spacing.separates] using (Bool.and_eq_true_iff.mp test).2

/-- Behind a token that ends with a letter or a digit the buffer starts with none. -/
theorem boundary_of_whole (unmixed : ∀ op ∈ ops, Unmixed op.token.toList)
    (found : whole? .wordsOnly (Entry.table ops) (candidate s.closed (c :: s.buffer)) rest = some entry)
    (letter : c.isAlphanum) : rest.head?.any Char.isAlphanum = false := by
  have member := (whole?_eq_some found).1
  obtain ⟨_, some, blanks, split, blank, boundary⟩ := exists_blanks_of_whole member found
  have last := congrArg List.getLast? split
  rw [List.getLast?_concat] at last
  rcases List.eq_nil_or_concat blanks with rfl | ⟨before, d, rfl⟩
  · refine boundary (Unmixed.isWord (c := c) ?_ ?_ letter)
    · rw [Entry.token_of_mem_table member]
      exact unmixed _ (Entry.op_mem_of_mem_table member)
    · rw [List.append_nil, List.getLast?_append_of_ne_nil _ some] at last
      exact List.mem_of_getLast? last.symm
  · rw [List.concat_eq_append, ← List.append_assoc, ← List.append_assoc, List.getLast?_concat,
      Option.some.injEq] at last
    have solid := isAlphanum_of_isBlank (blank d (by simp))
    rw [← last, letter] at solid
    cases solid

theorem boundary_of_ends (unmixed : ∀ op ∈ ops, Unmixed op.token.toList) {closed : Bool} {left : List Char}
    (member : entry ∈ Entry.table ops) (split : s.buffer.reverse ++ [c] = left.reverse ++ entry.token)
    (ends : Ends .wordsOnly closed left rest entry) (letter : c.isAlphanum) :
    rest.head?.any Char.isAlphanum = false := by
  have inside : c ∈ entry.token := by
    have last := congrArg List.getLast? split
    rw [List.getLast?_concat, List.getLast?_append_of_ne_nil _ ends.some] at last
    exact List.mem_of_getLast? last.symm
  have word : entry.word := by
    rw [Entry.word_of_mem_table member]
    refine Unmixed.isWord ?_ inside letter
    rw [Entry.token_of_mem_table member]
    exact unmixed _ (Entry.op_mem_of_mem_table member)
  exact any_isAlphanum_of_blank (ends.separated word).1

namespace Detached

variable (detached : s.Detached passed (c :: rest))

include detached

theorem restart (start : next.start = s.start + byteLength (s.buffer.reverse ++ [c]))
    (buffer : next.buffer = [])
    (boundary : next.closed = false → c.isAlphanum → rest.head?.any Char.isAlphanum = false) :
    next.Detached (passed ++ (s.buffer.reverse ++ [c])) rest := by
  refine ⟨by rw [start, detached.place, byteLength_append passed], fun front letter => ?_⟩
  rw [← List.append_assoc, List.getLast?_concat] at letter
  rw [buffer]
  exact boundary front letter

theorem stands_whole (found : whole? .wordsOnly (Entry.table ops)
      (candidate s.closed (c :: s.buffer)) rest = some entry) :
    Find.StandsApart
      ⟨entry.op, false, s.start + byteLength ((c :: s.buffer).reverse.takeWhile isBlank)⟩
      (passed ++ (s.buffer.reverse ++ c :: rest)) := by
  have member := (whole?_eq_some found).1
  obtain ⟨front, _, blanks, split, _, boundary⟩ := exists_blanks_of_whole member found
  rw [Entry.token_of_mem_table member] at split boundary
  generalize ahead : (c :: s.buffer).reverse.takeWhile isBlank = before at split ⊢
  have whole : s.buffer.reverse ++ c :: rest = before ++ (entry.op.token.toList ++ (blanks ++ rest)) := by
    rw [← List.append_assoc entry.op.token.toList, ← List.append_assoc, ← split, List.append_assoc]
    rfl
  refine ⟨passed ++ before, blanks ++ rest, ?_, ?_, fun word => ⟨?_, boundary word, nofun⟩⟩
  · rw [whole, List.append_assoc]
  · rw [byteLength_append, ← detached.place]
  · rcases List.eq_nil_or_concat before with rfl | ⟨others, d, rfl⟩
    · -- The token starts where the buffer does, so no letter is before it.
      have first := head?_of_isWord word (blanks ++ rest)
      rw [List.append_nil]
      cases last : passed.getLast?.any Char.isAlphanum with
      | false => rfl
      | true =>
        have none := detached.apart front last
        rw [whole, List.nil_append, first] at none
        cases none
    · have inside : d ∈ others.concat d := by simp
      rw [← ahead] at inside
      have blank : isBlank d := List.mem_takeWhile_imp inside
      rw [List.concat_eq_append, ← List.append_assoc, List.getLast?_concat]
      exact isAlphanum_of_isBlank blank

theorem stands_binary {closed : Bool} {left : List Char} (member : entry ∈ Entry.table ops)
    (split : s.buffer.reverse ++ [c] = left.reverse ++ entry.token)
    (ends : Ends .wordsOnly closed left rest entry) :
    Find.StandsApart ⟨entry.op, true, s.start + byteLength left.reverse⟩
      (passed ++ (s.buffer.reverse ++ c :: rest)) := by
  have token := Entry.token_of_mem_table member
  have whole : s.buffer.reverse ++ c :: rest = left.reverse ++ (entry.op.token.toList ++ rest) := by
    rw [← token, ← List.append_assoc, ← split, List.append_assoc]
    rfl
  refine ⟨passed ++ left.reverse, rest, ?_, ?_, fun word => ?_⟩
  · rw [whole, List.append_assoc]
  · rw [byteLength_append, ← detached.place]
  · have blanks := ends.separated (by rw [Entry.word_of_mem_table member, token]; exact word)
    have before : (passed ++ left.reverse).getLast?.any isBlank := by
      cases left with
      | nil => cases blanks.2
      | cons d others =>
        rw [List.reverse_cons, ← List.append_assoc, List.getLast?_concat]
        exact blanks.2
    exact ⟨any_isAlphanum_of_blank before, any_isAlphanum_of_blank blanks.1, fun _ => ⟨before, blanks.1⟩⟩

end Detached

end

section

variable {v : Vocabulary m C} {s next : Scan m C} {c : Char} {passed rest : List Char} {p : Phrase m C}

theorem Detached.more (detached : s.Detached passed (c :: rest)) (unmixed : v.Unmixed)
    (more : s.act c (mark (.ofVocabulary v .wordsOnly) s.closed s.buffer c rest) = .more next) :
    (∃ passed', passed' ++ (next.buffer.reverse ++ rest) = passed ++ (s.buffer.reverse ++ c :: rest) ∧
        next.Detached passed' rest) ∧
      ∀ f ∈ s.find? (.ofVocabulary v .wordsOnly) c rest,
        f.StandsApart (passed ++ (s.buffer.reverse ++ c :: rest)) := by
  cases moves_of_more more with
  | unary entry marked =>
    have found := whole?_of_mark_unary marked
    refine ⟨⟨passed ++ (s.buffer.reverse ++ [c]), by simp, ?_⟩, fun f member => ?_⟩
    · refine detached.restart ?_ rfl fun _ => boundary_of_whole unmixed.unary found
      rw [← List.reverse_cons, byteLength_reverse]
    · rw [find?, marked] at member
      cases member
      exact detached.stands_whole found
  | nothing marked =>
    have same : (c :: s.buffer).reverse ++ rest = s.buffer.reverse ++ c :: rest := by simp
    refine ⟨⟨passed, by rw [same], detached.place, fun front letter => ?_⟩, fun f member => ?_⟩
    · rw [same]
      exact detached.apart front letter
    · rw [find?, marked] at member
      cases member

theorem Detached.found (detached : s.Detached passed (c :: rest)) (unmixed : v.Unmixed)
    (found : s.act c (mark (.ofVocabulary v .wordsOnly) s.closed s.buffer c rest) = .found p) :
    (after p).Detached (passed ++ (s.buffer.reverse ++ [c])) rest ∧
      ∀ f ∈ p.find?, f.StandsApart (passed ++ (s.buffer.reverse ++ c :: rest)) := by
  have start : (after p).start = s.start + byteLength (s.buffer.reverse ++ [c]) := by
    rw [after_eq]
    exact next_of_found found
  have buffer : (after p).buffer = [] := by rw [after_eq]; rfl
  cases stops_of_found found with
  | constant entry marked =>
    have whole := whole?_of_mark_constant marked
    refine ⟨detached.restart start buffer fun _ => boundary_of_whole unmixed.constants whole,
      fun f member => ?_⟩
    cases member
    exact detached.stands_whole whole
  | binary entry left member split ends =>
    refine ⟨detached.restart start buffer fun _ => boundary_of_ends unmixed.binary member split ends,
      fun f member' => ?_⟩
    cases member'
    exact detached.stands_binary member split ends
  | bracket stop written =>
    rcases eq_of_bracket? written with ⟨rfl, rfl⟩ | ⟨rfl, rfl⟩ <;>
      exact ⟨detached.restart start buffer fun _ => nofun, fun f member => nomatch member⟩

/-- The induction is on the text. -/
theorem Detached.finds_stand (unmixed : v.Unmixed) {text : List Char} (detached : s.Detached passed text) :
    ∀ f ∈ s.finds (.ofVocabulary v .wordsOnly) text,
      f.StandsApart (passed ++ (s.buffer.reverse ++ text)) := by
  induction text generalizing s passed with
  | nil => exact fun f member => nomatch member
  | cons c rest ih =>
    rw [finds, step_eq_act]
    intro f member
    cases acted : s.act c (mark (.ofVocabulary v .wordsOnly) s.closed s.buffer c rest) with
    | more next =>
      obtain ⟨⟨passed', whole, detached'⟩, here⟩ := detached.more unmixed acted
      rw [acted] at member
      rcases List.mem_append.mp member with now | later
      · exact here f (Option.mem_toList.mp now)
      · exact whole ▸ ih detached' f later
    | found p =>
      obtain ⟨detached', here⟩ := detached.found unmixed acted
      rw [acted] at member
      rcases List.mem_append.mp member with now | later
      · exact here f (Option.mem_toList.mp now)
      · have stands := ih detached' f later
        rw [after_eq] at stands
        simpa [startingAt] using stands

end

end Scan

namespace Grammar

/-- If every token is a word or contains no letter and no digit, and words have to be separated, then no
operator of a whole text is found inside of a word: what is recognized are the operators of its phrases,
and each of them that is a word stands neither behind nor before a letter or a digit, and a binary one
between blanks. -/
theorem words_stand_apart {v : Vocabulary m C} (unmixed : v.Unmixed) (text : String) :
    ((Scan.startingAt false 0).finds (ofVocabulary v .wordsOnly) text.toList).map Find.op =
        ((Scan.startingAt false 0).phrases (ofVocabulary v .wordsOnly) text.toList).flatMap
          Phrase.operators ∧
      ∀ f ∈ (Scan.startingAt false 0).finds (ofVocabulary v .wordsOnly) text.toList,
        f.StandsApart text.toList :=
  ⟨Scan.finds_operators _ _ (.startingAt false 0), (Scan.detached_startingAt _).finds_stand unmixed⟩

/-- The word `in` is found between blanks, and not at the start of the longer `inner`. -/
theorem words_stand_apart_inner :
    ∃ found : List (Find Id Unit),
      (Scan.startingAt false 0).finds (ofVocabulary (.builtin ⟨fun _ _ => .absent⟩) .wordsOnly)
          "!sl é in (inner , true)".toList = found ∧
        found.map (fun f => (f.op.token, f.start)) =
          [("!", 0), ("sl", 1), ("in", 7), (",", 17), ("true", 19)] ∧
        ∀ f ∈ found, f.StandsApart "!sl é in (inner , true)".toList := by
  have unmixed : (Vocabulary.builtin ⟨fun _ _ => .absent⟩ : Vocabulary Id Unit).Unmixed :=
    ⟨by decide, by decide, by decide⟩
  exact ⟨_, rfl, rfl, (words_stand_apart unmixed "!sl é in (inner , true)").2⟩

end Grammar

end Formula
