import Formula.Proofs.Reading

/-!
# Operators between blanks

A binary operator with a blank on either side, behind what can be an operand, is recognized as that operator
and as no other, if no token can be recognized inside of its own. In a tidy vocabulary all are, whether or not
tokens have to be separated.
-/

namespace Formula

variable {m : Type → Type} {C : Type}

/-- Tokens are made of characters that mean nothing else. No binary token is listed twice, and none
stands inside another. -/
structure Vocabulary.Tidy (v : Vocabulary m C) : Prop where
  blank : ∀ c, isBlank c → v.Avoids c
  opening : v.Avoids '('
  closing : v.Avoids ')'
  quote : ∀ c, isQuote c → v.Avoids c
  some : ∀ op ∈ v.binary, op.token.toList ≠ []
  distinct : (v.binary.map fun op => op.token.toList).Nodup
  apart : ∀ token ∈ v.binary.map (fun op => op.token.toList),
    ∀ other ∈ v.binary.map (fun op => op.token.toList), ∀ before behind,
      token = before ++ other ++ behind → before = [] ∨ behind = []

/-- No token contains a blank, a bracket or a quote. -/
structure Vocabulary.Clear (v : Vocabulary m C) : Prop where
  blank : ∀ c, isBlank c → v.Avoids c
  opening : v.Avoids '('
  closing : v.Avoids ')'
  quote : ∀ c, isQuote c → v.Avoids c

/-- Whether the operator is the first one with its token, and each token in the middle of this one would have to
be separated. -/
structure Grammar.Stands (g : Grammar m C) (entry : Entry m C) : Prop where
  some : entry.token ≠ []
  first : g.binary.find? (fun other => other.token == entry.token) = .some entry
  inner : ∀ other ∈ g.binary, ∀ before behind, entry.token = before ++ other.token ++ behind →
    before ≠ [] → behind ≠ [] → other.token ≠ [] → g.spacing.separates other.word

theorem Grammar.Stands.member {g : Grammar m C} {entry : Entry m C} (stands : g.Stands entry) :
    entry ∈ g.binary :=
  List.mem_of_find?_eq_some stands.first

theorem find?_eq_some_of_first {α : Type} {xs : List α} {p q : α → Bool} {x : α} (first : xs.find? q = some x)
    (found : p x) (only : ∀ y ∈ xs, p y → q y) : xs.find? p = some x := by
  rw [List.find?_eq_some_iff_append] at first ⊢
  obtain ⟨_, earlier, later, rfl, others⟩ := first
  refine ⟨found, earlier, later, rfl, fun y member => ?_⟩
  rw [Bool.not_eq_true', ← Bool.not_eq_true]
  intro same
  have other := others y member
  rw [only y (List.mem_append_left _ member) same] at other
  cases other

theorem find?_eq_some_of_only {α : Type} {xs : List α} {p : α → Bool} {x : α} (member : x ∈ xs)
    (found : p x) (only : ∀ y ∈ xs, p y → y = x) : xs.find? p = some x := by
  cases search : xs.find? p with
  | none =>
    rw [List.find?_eq_none] at search
    exact absurd found (search x member)
  | some y => rw [only y (List.mem_of_find?_eq_some search) (List.find?_some search)]

namespace Scan

/-- Whether what has been read is an operand that a blank ends. -/
structure Bounded (g : Grammar m C) (s : Scan m C) : Prop where
  unquoted : isOpenQuote (trim s.buffer.reverse) = false
  solid : s.closed ∨ trim s.buffer.reverse ≠ []
  constants : s.closed = false → ∀ entry ∈ g.constants, entry.token ≠ trim s.buffer.reverse
  unary : s.closed = false → ∀ entry ∈ g.unary, entry.token ≠ trim s.buffer.reverse

section

variable {v : Vocabulary m C} {spacing : Spacing} {closed : Bool} {buffer read next rest : List Char}
  {c : Char} {entry other : Entry m C}

/-- What ends behind a character that no token contains is a piece of what stands since then. -/
theorem ends_within {d : Char} (avoids : other.Avoids d)
    (ends : endsWith spacing closed (c :: (read.reverse ++ d :: buffer)) rest other) :
    ∃ before, read ++ [c] = before ++ other.token ∧
      Ends spacing closed (before.reverse ++ d :: buffer) rest other := by
  obtain ⟨left, split, ends⟩ := endsWith_iff.mp ends
  have inside : other.token.reverse.isPrefixOf (c :: read.reverse) := by
    rw [← isPrefixOf_append_cons (c := d) (by simpa using avoids.token) _ buffer,
      List.isPrefixOf_iff_prefix, List.cons_append, split]
    exact List.prefix_append ..
  obtain ⟨before, piece⟩ := List.isPrefixOf_iff_prefix.mp inside
  have rest : left = before ++ d :: buffer := by
    rw [← List.cons_append, ← piece, List.append_assoc] at split
    exact (List.append_cancel_left split).symm
  refine ⟨before.reverse, ?_, by rw [List.reverse_reverse, ← rest]; exact ends⟩
  have reversed := congrArg List.reverse piece
  simpa using reversed.symm

theorem find?_endsWith_inside (clear : v.Clear) (stands : (Grammar.ofVocabulary v spacing).Stands entry)
    (split : entry.token = read ++ c :: next) (more : next ≠ []) :
    (Entry.table v.binary).find?
      (endsWith spacing closed (c :: (read.reverse ++ ' ' :: buffer)) (next ++ rest)) = none := by
  rw [List.find?_eq_none]
  intro other listed ends
  have blankFree := Entry.table_avoids (clear.blank ' ' rfl).binary other listed
  obtain ⟨before, piece, ends⟩ := ends_within blankFree ends
  have whole : entry.token = before ++ other.token ++ next := by rw [split, ← piece]; simp
  have token := Entry.token_mem_of_mem_table stands.member
  by_cases start : before = []
  · have longer := (Entry.mem_longerStarting listed).mpr ⟨token, next, more, by rw [whole, start]; rfl⟩
    refine ends.longerStarting _ longer ⟨rest, ?_⟩
    rw [whole, start, List.nil_append, List.append_assoc]
  · -- In the middle of the token there is no blank for one that has to be separated.
    have separate := stands.inner other listed before next whole start more ends.some
    have blank := (ends.separated separate).2
    obtain ⟨front, last, rfl⟩ : ∃ front last, before = front ++ [last] :=
      ⟨_, _, (List.dropLast_concat_getLast start).symm⟩
    have inToken : last ∈ entry.token := by simp [whole]
    rw [List.reverse_concat, List.cons_append, List.head?_cons, Option.any_some] at blank
    exact (Entry.table_avoids (clear.blank last blank).binary entry stands.member).token inToken

theorem mem_of_prefix_cons {d : Char} {piece text : List Char} (some : piece ≠ [])
    (start : piece <+: d :: text) : d ∈ piece := by
  obtain ⟨first, others, rfl⟩ := List.exists_cons_of_ne_nil some
  rw [List.cons_prefix_cons] at start
  rw [start.1]
  exact List.mem_cons_self ..

/-- No longer token starts or ends with one between blanks. -/
theorem ends_between_blanks (clear : v.Clear) (member : entry ∈ Entry.table v.binary) (some : entry.token ≠ [])
    (solid : closed ∨ trim buffer.reverse ≠ []) (unquoted : isOpenQuote (trim buffer.reverse) = false) :
    Ends spacing closed (' ' :: buffer) (' ' :: rest) entry := by
  have blankFree := Entry.table_avoids (clear.blank ' ' rfl).binary entry member
  have left : trim (' ' :: buffer).reverse = trim buffer.reverse := by
    rw [List.reverse_cons]
    exact trim_append_blank rfl _
  refine ⟨some, left ▸ solid, left ▸ unquoted, ?_, ?_, fun _ => ⟨rfl, rfl⟩⟩
  · intro longer listed within
    obtain ⟨_, before, more, rfl⟩ := (Entry.mem_longerEnding member).mp listed
    rw [List.reverse_append, List.prefix_append_right_inj] at within
    have blank := mem_of_prefix_cons (mt List.reverse_eq_nil_iff.mp more) within
    exact blankFree.longerEnding _ listed (List.mem_append_left _ (List.mem_reverse.mp blank))
  · intro longer listed within
    obtain ⟨_, behind, more, rfl⟩ := (Entry.mem_longerStarting member).mp listed
    rw [List.prefix_append_right_inj] at within
    have blank := mem_of_prefix_cons more within
    exact blankFree.longerStarting _ listed (List.mem_append_right _ blank)

theorem find?_endsWith_last (clear : v.Clear) (stands : (Grammar.ofVocabulary v spacing).Stands entry)
    (split : entry.token = read ++ [c]) (solid : closed ∨ trim buffer.reverse ≠ [])
    (unquoted : isOpenQuote (trim buffer.reverse) = false) :
    (Entry.table v.binary).find?
      (endsWith spacing closed (c :: (read.reverse ++ ' ' :: buffer)) (' ' :: rest)) = some entry := by
  have reversed : c :: (read.reverse ++ ' ' :: buffer) = entry.token.reverse ++ ' ' :: buffer := by
    rw [split]
    simp
  have token := Entry.token_mem_of_mem_table stands.member
  refine find?_eq_some_of_first stands.first (endsWith_iff.mpr ⟨' ' :: buffer, reversed, ?_⟩) ?_
  · exact ends_between_blanks clear stands.member stands.some solid unquoted
  · intro other listed ends
    have blankFree := Entry.table_avoids (clear.blank ' ' rfl).binary other listed
    obtain ⟨before, piece, ends⟩ := ends_within blankFree ends
    rw [← split] at piece
    by_cases whole : before = []
    · rw [whole, List.nil_append] at piece
      exact beq_iff_eq.mpr piece.symm
    · have longer := (Entry.mem_longerEnding listed).mpr ⟨token, before, whole, piece⟩
      refine absurd ?_ (ends.longerEnding _ longer)
      rw [piece, List.reverse_append, List.prefix_append_right_inj]
      exact List.prefix_append ..

/-- The text since an operand and a blank is no token. -/
theorem whole?_behind_blank {entries : List (Entry m C)}
    (blankFree : ∀ entry ∈ entries, entry.Avoids ' ') (solid : closed ∨ trim buffer.reverse ≠ [])
    (last : isBlank c = false) :
    whole? spacing entries (candidate closed (c :: (read.reverse ++ ' ' :: buffer))) rest = none := by
  cases closed with
  | true => exact whole?_nil ..
  | false =>
    have before : trim buffer.reverse ≠ [] := solid.resolve_left Bool.false_ne_true
    rw [ne_eq, trim_eq_nil_iff] at before
    simp only [not_forall, Bool.not_eq_true] at before
    obtain ⟨first, member, unblank⟩ := before
    have text : (c :: (read.reverse ++ ' ' :: buffer)).reverse = buffer.reverse ++ ' ' :: (read ++ [c]) := by
      simp
    refine whole?_of_mem blankFree ?_ spacing rest
    rw [candidate, text]
    exact mem_trim_between member unblank (List.mem_append_right _ (List.mem_singleton_self c)) last

theorem isBlank_of_mem_token (clear : v.Clear) (member : entry ∈ Entry.table v.binary)
    (inToken : c ∈ entry.token) : isBlank c = false := by
  cases blank : isBlank c with
  | false => rfl
  | true => exact absurd inToken (Entry.table_avoids (clear.blank c blank).binary entry member).token

theorem bracket?_of_mem_token (clear : v.Clear) (member : entry ∈ Entry.table v.binary)
    (inToken : c ∈ entry.token) : (bracket? c : Option (Stop m C)) = none := by
  refine bracket?_eq_none ?_ ?_
  · rintro rfl
    exact (Entry.table_avoids clear.opening.binary entry member).token inToken
  · rintro rfl
    exact (Entry.table_avoids clear.closing.binary entry member).token inToken

/-- Behind an operand and a blank, a character of a binary token is a binary operator or nothing. -/
theorem mark_in_token (clear : v.Clear) (member : entry ∈ Entry.table v.binary)
    (inToken : c ∈ entry.token) (solid : closed ∨ trim buffer.reverse ≠ []) :
    mark (.ofVocabulary v spacing) closed (read.reverse ++ ' ' :: buffer) c rest =
      match (Entry.table v.binary).find?
        (endsWith spacing closed (c :: (read.reverse ++ ' ' :: buffer)) rest) with
      | some entry => .binary entry
      | none => .nothing := by
  have blankFree := Grammar.ofVocabulary_avoids (clear.blank ' ' rfl) spacing
  have last := isBlank_of_mem_token clear member inToken
  unfold mark
  rw [whole?_behind_blank blankFree.constants solid last, whole?_behind_blank blankFree.unary solid last,
    bracket?_of_mem_token clear member inToken]
  rfl

theorem quiet_in_token (clear : v.Clear) (stands : (Grammar.ofVocabulary v spacing).Stands entry)
    (split : entry.token = read ++ (next ++ [c])) (solid : closed ∨ trim buffer.reverse ≠ []) :
    Quiet (.ofVocabulary v spacing) closed (read.reverse ++ ' ' :: buffer) next (c :: rest) := by
  induction next generalizing read with
  | nil => trivial
  | cons d next ih =>
    have inToken : d ∈ entry.token := by simp [split]
    have inside : (Entry.table v.binary).find? (endsWith spacing closed
        (d :: (read.reverse ++ ' ' :: buffer)) (next ++ [c] ++ rest)) = none :=
      find?_endsWith_inside clear stands split (by simp)
    have later : Quiet (.ofVocabulary v spacing) closed ((read ++ [d]).reverse ++ ' ' :: buffer) next
        (c :: rest) := ih (by simpa using split)
    refine ⟨?_, by simpa using later⟩
    rw [List.append_assoc, List.singleton_append] at inside
    rw [mark_in_token clear stands.member inToken solid, inside]

end

variable {v : Vocabulary m C} {spacing : Spacing} {inside : Bool} {s : Scan m C}
  {building : Building m C} {entry : Entry m C} {behind : List Char}

theorem whole?_blank {entries : List (Entry m C)} {rest : List Char}
    (other : s.closed = false → ∀ entry ∈ entries, entry.token ≠ trim s.buffer.reverse) :
    whole? spacing entries (candidate s.closed (' ' :: s.buffer)) rest = none := by
  cases closed : s.closed with
  | true => exact whole?_nil ..
  | false =>
    have text : candidate false (' ' :: s.buffer) = trim s.buffer.reverse := by
      rw [candidate, if_neg Bool.false_ne_true, List.reverse_cons, trim_append_blank rfl]
    rw [text, whole?]
    split
    · rfl
    · rw [List.find?_eq_none]
      intro entry member found
      simp only [Bool.and_eq_true, beq_iff_eq] at found
      exact other closed entry member found.1

/-- A blank behind an operand and the token of a binary operator before another blank. -/
theorem read_spaced (clear : v.Clear) (stands : (Grammar.ofVocabulary v spacing).Stands entry)
    (bounded : s.Bounded (.ofVocabulary v spacing))
    (ready : s.Ready building) (groups : List (OpenGroup m C)) :
    (Grammar.ofVocabulary v spacing).read inside ⟨groups, building⟩ s
        (' ' :: (entry.token ++ ' ' :: behind)) =
      (Grammar.ofVocabulary v spacing).read inside
        ⟨groups, .awaiting ((Assembly.treeWith building s.finish).append entry.op entry.priority)⟩
        (.startingAt false (s.stopStart + 1 + byteLength entry.token)) (' ' :: behind) := by
  have blankFree := Grammar.ofVocabulary_avoids (clear.blank ' ' rfl) spacing
  obtain ⟨read, c, split⟩ : ∃ read c, entry.token = read ++ [c] :=
    ⟨_, _, (List.dropLast_concat_getLast stands.some).symm⟩
  have inToken : c ∈ entry.token := by simp [split]
  have blank : mark (.ofVocabulary v spacing) s.closed s.buffer ' ' (entry.token ++ ' ' :: behind) =
      .nothing :=
    mark_blank blankFree (whole?_blank bounded.constants) (whole?_blank bounded.unary)
  have unread : entry.token = [] ++ (read ++ [c]) := split
  have quiet : Quiet (.ofVocabulary v spacing) s.closed (' ' :: s.buffer) read (c :: ' ' :: behind) :=
    quiet_in_token clear stands unread bounded.solid
  have last : mark (.ofVocabulary v spacing) s.closed (read.reverse ++ ' ' :: s.buffer) c
      (' ' :: behind) = .binary entry := by
    rw [mark_in_token clear stands.member inToken bounded.solid,
      find?_endsWith_last clear stands split bounded.solid bounded.unquoted]
  have text : entry.token ++ ' ' :: behind = read ++ c :: ' ' :: behind := by simp [split]
  have left : (c :: (read.reverse ++ ' ' :: s.buffer)).drop entry.token.length = ' ' :: s.buffer := by
    rw [split]
    simp
  have operand : trim (' ' :: s.buffer).reverse = trim s.buffer.reverse := by
    rw [List.reverse_cons]
    exact trim_append_blank rfl _
  let p := s.phrase (' ' :: s.buffer).reverse (.binary entry) (byteLength entry.token)
  have tree : Assembly.treeWith building p = Assembly.treeWith building s.finish := by
    cases building with
    | awaiting spine => simp only [Assembly.treeWith, Assembly.operandTree, p, phrase, finish, operand]
    | complete tree => rfl
  have next : p.next = s.stopStart + 1 + byteLength entry.token := by
    have one : byteLength [' '] = 1 := rfl
    simp only [p, phrase, stopStart, List.reverse_cons, byteLength_append, one]
    omega
  have found : Scan.act ⟨s.closed, s.unary, s.start, read.reverse ++ ' ' :: s.buffer⟩ c
      (mark (.ofVocabulary v spacing) s.closed (read.reverse ++ ' ' :: s.buffer) c (' ' :: behind)) =
      .found p := by
    rw [last, act, left]
    rfl
  rw [read_nothing blank, text, read_quiet quiet, ← tree, ← next]
  exact read_found found (.binary entry rfl fun complete => operand.trans (ready.bare complete))

/-- A binary operator between blanks, behind a tree that is complete. -/
theorem read_operator (clear : v.Clear) (stands : (Grammar.ofVocabulary v spacing).Stands entry)
    (t : Tree m C) (groups : List (OpenGroup m C)) (start : Nat) (behind : List Char) :
    ∃ next, (Grammar.ofVocabulary v spacing).read inside ⟨groups, .complete t⟩ (.startingAt true start)
        (' ' :: (entry.token ++ ' ' :: behind)) =
      (Grammar.ofVocabulary v spacing).read inside ⟨groups, .awaiting (t.append entry.op entry.priority)⟩
        (.startingAt false next) (' ' :: behind) := by
  have bounded : (startingAt true start : Scan m C).Bounded (.ofVocabulary v spacing) :=
    ⟨rfl, Or.inl rfl, nofun, nofun⟩
  have ready : (startingAt true start : Scan m C).Ready (.complete t) := ⟨rfl, fun _ => rfl⟩
  exact ⟨_, read_spaced clear stands bounded ready groups⟩

end Scan

/-! ## The built-in operators -/

namespace Vocabulary

theorem Avoids.append {v w : Vocabulary m C} {c : Char} (avoids : v.Avoids c) (others : w.Avoids c) :
    (v.append w).Avoids c :=
  ⟨List.forall_mem_append.mpr ⟨avoids.binary, others.binary⟩,
    List.forall_mem_append.mpr ⟨avoids.unary, others.unary⟩,
    List.forall_mem_append.mpr ⟨avoids.constants, others.constants⟩⟩

theorem Clear.append {v w : Vocabulary m C} (clear : v.Clear) (others : w.Clear) : (v.append w).Clear :=
  ⟨fun c blank => (clear.blank c blank).append (others.blank c blank), clear.opening.append others.opening,
    clear.closing.append others.closing, fun c marks => (clear.quote c marks).append (others.quote c marks)⟩

theorem Tidy.clear {v : Vocabulary m C} (tidy : v.Tidy) : v.Clear :=
  ⟨tidy.blank, tidy.opening, tidy.closing, tidy.quote⟩

theorem Tidy.stands {v : Vocabulary m C} (tidy : v.Tidy) {spacing : Spacing} {entry : Entry m C}
    (member : entry ∈ Entry.table v.binary) : (Grammar.ofVocabulary v spacing).Stands entry := by
  refine ⟨?_, ?_, fun other listed before behind split start last => ?_⟩
  · rw [Entry.token_of_mem_table member]
    exact tidy.some _ (Entry.op_mem_of_mem_table member)
  · refine find?_eq_some_of_only member (beq_self_eq_true _) fun other listed same => ?_
    exact Entry.eq_of_token_eq tidy.distinct listed member (beq_iff_eq.mp same)
  · have token := Entry.token_mem_of_mem_table member
    have within := tidy.apart _ token _ (Entry.token_mem_of_mem_table listed) before behind split
    exact absurd within (not_or.mpr ⟨start, last⟩)

/-- Whether the vocabulary has the tokens of the built-in operators, whatever its operators do. -/
structure SpelledAsBuiltin (v : Vocabulary m C) : Prop where
  binary : v.binary.map Operator.token =
    [".", "*", "/", "+", "-", "^", "@", "in", "=", "!=", ">", "<", ">=", "<=", "&", "|", ","]
  unary : v.unary.map Operator.token = ["!", "+", "-", "sl", "JSON"]
  constants : v.constants.map Operator.token = ["false", "true", "null", "undefined"]

theorem builtin_spelled [Monad m] (host : Host) : (builtin host : Vocabulary m C).SpelledAsBuiltin :=
  ⟨rfl, rfl, rfl⟩

theorem builtin_spelled_map [Monad m] (host : Host) (foldable : Bool) :
    ((builtin host : Vocabulary m C).map (·.withFoldable foldable)).SpelledAsBuiltin :=
  ⟨rfl, rfl, rfl⟩

/-- The characters of the built-in tokens. -/
def letters : List Char :=
  ".*/+-^@in=!<>&|,slJSONfalsetruenullundefined".toList

theorem SpelledAsBuiltin.avoids {v : Vocabulary m C} (spelled : v.SpelledAsBuiltin) {c : Char}
    (none : c ∉ letters) : v.Avoids c := by
  have table : ∀ {ops : List (Operator m C)} {tokens : List String}, ops.map Operator.token = tokens →
      (∀ token ∈ tokens, token.toList.all (· ∈ letters)) → ∀ op ∈ ops, c ∉ op.token.toList := by
    rintro ops _ rfl spelled op member inToken
    have letter := List.all_eq_true.mp (spelled _ (List.mem_map_of_mem member)) c inToken
    exact none (of_decide_eq_true letter)
  exact ⟨table spelled.binary (by decide), table spelled.unary (by decide),
    table spelled.constants (by decide)⟩

theorem SpelledAsBuiltin.avoids_class {v : Vocabulary m C} (spelled : v.SpelledAsBuiltin) {p : Char → Bool}
    (none : letters.all fun d => !p d) {c : Char} (inside : p c) : v.Avoids c := by
  refine spelled.avoids fun letter => ?_
  have outside := List.all_eq_true.mp none c letter
  rw [inside] at outside
  cases outside

theorem SpelledAsBuiltin.tidy {v : Vocabulary m C} (spelled : v.SpelledAsBuiltin) : v.Tidy := by
  have tokens : v.binary.map (fun op => op.token.toList) =
      [".", "*", "/", "+", "-", "^", "@", "in", "=", "!=", ">", "<", ">=", "<=", "&", "|", ","].map
        String.toList := by
    rw [map_toList_token, spelled.binary]
  have lengths : ∀ token ∈ v.binary.map (fun op => op.token.toList),
      0 < token.length ∧ token.length ≤ 2 := by
    rw [tokens]
    decide
  constructor
  · exact fun c blank => spelled.avoids_class (by decide) blank
  · exact spelled.avoids (by decide)
  · exact spelled.avoids (by decide)
  · exact fun c quote => spelled.avoids_class (by decide) quote
  · intro op member empty
    have short := lengths _ (List.mem_map_of_mem member)
    rw [empty] at short
    exact Nat.lt_irrefl 0 short.1
  · rw [tokens]
    decide
  · intro token member other member' before behind split
    have long := (lengths token member).2
    have some := (lengths other member').1
    rw [split, List.length_append, List.length_append] at long
    by_contra neither
    rw [not_or] at neither
    have first := List.length_pos_iff.mpr neither.1
    have last := List.length_pos_iff.mpr neither.2
    omega

end Vocabulary

end Formula
