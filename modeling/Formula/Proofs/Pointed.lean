import Formula.Proofs.Literals
import Formula.Proofs.Wholes

/-!
# Numbers with a point

Where tokens need not be separated, a point between digits is read as the tightest binary operator, and a
sign before an operand as a unary one. What they make of the digits is the number that was written.
-/

namespace Formula

variable {m : Type → Type} {C : Type} {v : Vocabulary m C} {spacing : Spacing} {text behind : List Char}

/-! ## Digits -/

theorem Vocabulary.Legible.unbroken_digits (legible : v.Legible spacing) (digits : ∀ c ∈ text, c.isDigit)
    (behind : List Char) : Scan.Unbroken (.ofVocabulary v spacing) text behind := by
  have outside : ∀ entry : Entry m C, (∀ c, c.isDigit → c ∉ entry.token) → entry.token ≠ [] →
      ¬∀ c ∈ entry.token, c ∈ text := by
    intro entry avoid some inside
    obtain ⟨c, rest, token⟩ := List.exists_cons_of_ne_nil some
    have member : c ∈ entry.token := by simp [token]
    exact avoid c (digits c (inside c member)) member
  have avoids : ∀ c, c.isDigit → (Grammar.ofVocabulary v spacing).Avoids c :=
    fun c digit => Grammar.ofVocabulary_avoids (legible.digits c digit) spacing
  constructor
  · exact fun c member => isBlank_of_isDigit (digits c member)
  · intro c member
    obtain ⟨opening, closing⟩ :=
      Numeral.ne_bracket_of_isNumeric (Numeral.isNumeric_of_isDigit (digits c member))
    exact Scan.bracket?_eq_none opening closing
  · intro entry member later split some
    refine absurd (fun c inside => ?_) (outside entry (fun c digit => ?_) some)
    · rw [split]
      exact List.mem_append_left _ inside
    · rcases List.mem_append.mp member with constant | unary
      · exact ((avoids c digit).constants entry constant).token
      · exact ((avoids c digit).unary entry unary).token
  · intro entry member before later split _ some
    refine absurd (fun c inside => ?_)
      (outside entry (fun c digit => ((avoids c digit).binary entry member).token) some)
    rw [split]
    simp [inside]

theorem Grammar.reads_digits (legible : v.Legible spacing) (some : text ≠ [])
    (digits : ∀ c ∈ text, c.isDigit) (delimits : (Grammar.ofVocabulary v spacing).Delimits behind) :
    (Grammar.ofVocabulary v spacing).ReadsAs text (.leaf (Value.ofOperand text)) behind := by
  obtain ⟨c, rest, rfl⟩ := List.exists_cons_of_ne_nil some
  have digit := digits c (List.mem_cons_self ..)
  have avoids := Grammar.ofVocabulary_avoids (legible.digits _ digit) spacing
  have solid : ∀ d ∈ c :: rest, isBlank d = false := fun d member => isBlank_of_isDigit (digits d member)
  refine reads_operand legible.clear (fun buffer blank => ?_) (trim_of_solid solid) some ?_ ?_ delimits
  · exact Scan.quiet_unbroken (legible.unbroken_digits digits behind) blank
  · rw [isOpenQuote, isQuote_of_isDigit digit, Bool.false_and]
  · intro entry member token
    have outside : c ∉ entry.token := by
      rcases List.mem_append.mp member with constant | unary
      · exact (avoids.constants entry constant).token
      · exact (avoids.unary entry unary).token
    rw [token] at outside
    exact outside (List.mem_cons_self ..)

/-! ## Points -/

namespace Vocabulary.Legible

/-- The point is the tightest binary operator. -/
theorem exists_point (legible : v.Legible spacing) :
    ∃ entry ∈ Entry.table v.binary, entry.token = ['.'] ∧ entry.op.token = "." ∧ entry.priority = 1 := by
  obtain ⟨op, first, token⟩ := Option.map_eq_some_iff.mp legible.point
  rw [List.head?_eq_getElem?] at first
  refine ⟨_, Entry.mem_table.mpr ⟨op, 0, first, rfl⟩, ?_, token, rfl⟩
  rw [Entry.ofOperator, token]
  rfl

/-- A binary token with a point is the point. -/
theorem eq_point (legible : v.Legible spacing) {token : List Char}
    (listed : token ∈ v.binary.map fun op => op.token.toList) (inside : '.' ∈ token) : token = ['.'] := by
  obtain ⟨op, member, rfl⟩ := List.mem_map.mp listed
  rw [legible.pointed op member inside]
  rfl

/-- Behind digits a point is recognized. -/
theorem find?_point (legible : v.Legible spacing) (free : spacing ≠ .always) {entry : Entry m C}
    (member : entry ∈ Entry.table v.binary) (token : entry.token = ['.']) {left : List Char}
    (some : trim left.reverse ≠ []) (unquoted : isOpenQuote (trim left.reverse) = false)
    (rest : List Char) :
    (Entry.table v.binary).find? (Scan.endsWith spacing false ('.' :: left) rest) = .some entry := by
  refine find?_eq_some_of_first (legible.stands entry member (by simp [token])).first ?_ fun other listed ends => ?_
  · refine Scan.endsWith_iff.mpr ⟨left, by rw [token]; rfl, by rw [token]; exact List.cons_ne_nil _ _,
      Or.inr some, unquoted, ?_, ?_, ?_⟩
    · intro longer found
      obtain ⟨listed, before, some, rfl⟩ := (Entry.mem_longerEnding member).mp found
      have short := legible.eq_point listed (by simp [token])
      rw [token, List.append_eq_singleton_iff] at short
      simp [some] at short
    · intro longer found
      obtain ⟨listed, later, some, rfl⟩ := (Entry.mem_longerStarting member).mp found
      have short := legible.eq_point listed (by simp [token])
      rw [token, List.append_eq_singleton_iff] at short
      simp [some] at short
    · rw [Entry.word_of_mem_table member, token, Spacing.separates_symbol free (by decide)]
      exact nofun
  · obtain ⟨_, split, ends⟩ := Scan.endsWith_iff.mp ends
    obtain ⟨last, front, reversed⟩ := List.exists_cons_of_ne_nil (mt List.reverse_eq_nil_iff.mp ends.some)
    rw [reversed] at split
    obtain rfl : '.' = last := (List.cons.inj split).1
    have inside : '.' ∈ other.token := by
      rw [← List.mem_reverse, reversed]
      exact List.mem_cons_self ..
    rw [legible.eq_point (Entry.token_mem_of_mem_table listed) inside, token]
    rfl

theorem mark_point (legible : v.Legible spacing) (free : spacing ≠ .always) {entry : Entry m C}
    (member : entry ∈ Entry.table v.binary) (token : entry.token = ['.']) (some : text ≠ [])
    (digits : ∀ c ∈ text, c.isDigit) {buffer : List Char} (blank : ∀ d ∈ buffer, isBlank d)
    (rest : List Char) :
    Scan.mark (.ofVocabulary v spacing) false (text.reverse ++ buffer) '.' rest = .binary entry := by
  obtain ⟨c, others, rfl⟩ := List.exists_cons_of_ne_nil some
  have digit := digits c (List.mem_cons_self ..)
  have avoids := Grammar.ofVocabulary_avoids (legible.digits _ digit) spacing
  have solid : ∀ d ∈ c :: others, isBlank d = false := fun d inside => isBlank_of_isDigit (digits d inside)
  have solid' : ∀ d ∈ c :: others ++ ['.'], isBlank d = false :=
    List.forall_mem_append.mpr ⟨solid, List.forall_mem_singleton.mpr rfl⟩
  have operand := (trim_reverse_append blank (c :: others)).trans (trim_of_solid solid)
  have unquoted : isOpenQuote (c :: others) = false := by
    rw [isOpenQuote, isQuote_of_isDigit digit, Bool.false_and]
  have whole : ∀ entries : List (Entry m C), (∀ entry ∈ entries, entry.Avoids c) →
      Scan.whole? spacing entries (c :: others ++ ['.']) rest = none :=
    fun entries avoid => Scan.whole?_of_mem avoid (by simp) spacing rest
  have constants := whole (Entry.table v.constants) avoids.constants
  have unary := whole (Entry.table v.unary) avoids.unary
  have bracket : (Scan.bracket? '.' : Option (Stop m C)) = none := rfl
  have binary := legible.find?_point free member token (by rw [operand]; exact some)
    (by rw [operand]; exact unquoted) rest
  unfold Scan.mark
  rw [Scan.candidate_of_solid solid' blank]
  simp only [Grammar.ofVocabulary, constants, unary, bracket, Option.filter_none, binary]

/-- Before an operand a minus is recognized, also if there is no blank behind it. -/
theorem read_minus (legible : v.Legible spacing) (free : spacing ≠ .always) {entry : Entry m C}
    (member : entry ∈ Entry.table v.unary) (token : entry.token = ['-']) {inside : Bool} {a : Assembly m C}
    {s : Scan m C} (fresh : s.Fresh) (rest : List Char) :
    (Grammar.ofVocabulary v spacing).read inside a s ('-' :: rest) =
      (Grammar.ofVocabulary v spacing).read inside a
        ⟨s.closed, entry.op :: s.unary, s.start + byteLength ('-' :: s.buffer), []⟩ rest := by
  have unary := Entry.op_mem_of_mem_table member
  have constants : ∀ op ∈ v.constants, op.token.toList ≠ entry.token := by
    rw [Entry.token_of_mem_table member]
    exact fun op constant => legible.apart op constant entry.op unary
  have free : (spacing.separates entry.word && rest.head?.any Char.isAlphanum) = false := by
    rw [Entry.word_of_mem_table member, token, Spacing.separates_symbol free (by decide), Bool.false_and]
  have solid : ∀ d ∈ entry.token, isBlank d = false := by
    rw [token]
    exact List.forall_mem_singleton.mpr rfl
  refine Scan.read_unary ?_
  rw [fresh.closed]
  have split : entry.token = [] ++ ['-'] := token
  exact Scan.mark_unary_token legible.unary constants member split solid fresh.blank free

end Vocabulary.Legible

namespace Grammar

variable {entry sign : Entry m C} {whole fraction : List Char}

/-- A minus without a blank behind it belongs to the operand. -/
theorem ReadsAs.minus (legible : v.Legible spacing) (free : spacing ≠ .always)
    (member : sign ∈ Entry.table v.unary) (token : sign.token = ['-']) {t : Tree m C}
    (reads : (Grammar.ofVocabulary v spacing).ReadsAs text t behind) :
    (Grammar.ofVocabulary v spacing).ReadsAs ('-' :: text) (.unary sign.op t) behind := by
  intro inside groups spine s fresh
  obtain ⟨start, operand⟩ := reads inside groups spine
    ⟨s.closed, sign.op :: s.unary, s.start + byteLength ('-' :: s.buffer), []⟩ ⟨fresh.closed, Or.inl rfl⟩
  have wrapped : Tree.wrap (sign.op :: s.unary).reverse t = Tree.wrap s.unary.reverse (.unary sign.op t) := by
    rw [Tree.wrap, Tree.wrap, List.reverse_cons, List.foldr_append]
    rfl
  refine ⟨start, ?_⟩
  rw [List.cons_append, legible.read_minus free member token fresh, operand, wrapped]

/-- Digits around a point are the operands of an operator. Unary operators before them apply to the digits
before the point. -/
theorem read_point (legible : v.Legible spacing) (free : spacing ≠ .always)
    (member : entry ∈ Entry.table v.binary) (token : entry.token = ['.']) (some : whole ≠ [])
    (are : ∀ c ∈ whole, c.isDigit) (some' : fraction ≠ []) (are' : ∀ c ∈ fraction, c.isDigit)
    (delimits : (Grammar.ofVocabulary v spacing).Delimits behind) (inside : Bool)
    (groups : List (OpenGroup m C)) (spine : Spine m C) {s : Scan m C} (fresh : s.Fresh) :
    ∃ start, (Grammar.ofVocabulary v spacing).read inside ⟨groups, .awaiting spine⟩ s
        (whole ++ '.' :: fraction ++ behind) =
      (Grammar.ofVocabulary v spacing).read inside
        ⟨groups, .complete
          (((spine.fill (Tree.wrap s.unary.reverse (.leaf (Value.ofOperand whole)))).append entry.op
            entry.priority).fill (.leaf (Value.ofOperand fraction)))⟩ (.startingAt true start) behind := by
  have quiet : Scan.Quiet (.ofVocabulary v spacing) s.closed s.buffer whole
      ('.' :: (fraction ++ behind)) := by
    rw [fresh.closed]
    exact Scan.quiet_unbroken (legible.unbroken_digits are _) fresh.blank
  have marked : Scan.mark (.ofVocabulary v spacing) s.closed (whole.reverse ++ s.buffer) '.'
      (fraction ++ behind) = .binary entry := by
    rw [fresh.closed]
    exact legible.mark_point free member token some are fresh.blank _
  have solid : ∀ d ∈ whole, isBlank d = false := fun d inside => isBlank_of_isDigit (are d inside)
  have operand := (trim_reverse_append fresh.blank whole).trans (trim_of_solid solid)
  let last : Scan m C := { s with buffer := whole.reverse ++ s.buffer }
  let phrase : Phrase m C := last.phrase last.buffer.reverse (.binary entry) 1
  have found : last.act '.' (Scan.mark (.ofVocabulary v spacing) last.closed last.buffer '.'
      (fraction ++ behind)) = .found phrase := by
    have length : byteLength ['.'] = 1 := rfl
    rw [marked, Scan.act, token, length]
    rfl
  have text : whole ++ '.' :: fraction ++ behind = whole ++ '.' :: (fraction ++ behind) := by
    rw [List.append_assoc, List.cons_append]
  have tree : Assembly.treeWith (.awaiting spine) phrase =
      spine.fill (Tree.wrap s.unary.reverse (.leaf (Value.ofOperand whole))) := by
    simp only [Assembly.treeWith, Assembly.operandTree, Scan.phrase, operand, last, phrase]
  have takes : Assembly.Takes inside ⟨groups, .awaiting spine⟩ phrase (.next ⟨groups, .awaiting
      ((Assembly.treeWith (.awaiting spine) phrase).append entry.op entry.priority)⟩) :=
    .binary entry rfl fun closed => by cases closed
  rw [tree] at takes
  -- Behind the point the digits are read as any operand is, now of the operator.
  obtain ⟨start, rest⟩ := reads_digits legible some' are' delimits inside groups
    ((spine.fill (Tree.wrap s.unary.reverse (.leaf (Value.ofOperand whole)))).append entry.op entry.priority)
    _ (Scan.fresh_startingAt phrase.next)
  refine ⟨start, ?_⟩
  rw [text, Scan.read_quiet quiet, Scan.read_found found takes]
  exact rest

end Grammar

end Formula
