import Formula.Proofs.Delimited
import Formula.Proofs.Legible
import Formula.Proofs.Quiet

/-!
# Constants and unary operators

Where an operand can stand, the token of a constant is read as that constant, and a unary token before a
blank as that operator, if no other token is recognized in it.
-/

namespace Formula

variable {m : Type → Type} {C : Type} {v : Vocabulary m C} {spacing : Spacing} {entry : Entry m C}
  {read behind buffer piece : List Char} {c : Char} {t : Tree m C}

theorem Grammar.Delimits.boundary {g : Grammar m C} (delimits : g.Delimits behind) :
    behind.head?.any Char.isAlphanum = false := by
  cases delimits <;> rfl

namespace Scan

theorem whole?_eq {ops : List (Operator m C)} (distinct : (ops.map fun op => op.token.toList).Nodup)
    (member : entry ∈ Entry.table ops) (nonempty : entry.token ≠ [])
    (apart : (spacing.separates entry.word && behind.head?.any Char.isAlphanum) = false) :
    whole? spacing (Entry.table ops) entry.token behind = some entry := by
  rw [whole?, if_neg nonempty]
  refine find?_eq_some_of_only member ?_ fun other listed found => ?_
  · simp only [apart, Bool.not_false, Bool.and_true, beq_self_eq_true]
  · simp only [Bool.and_eq_true, beq_iff_eq] at found
    exact Entry.eq_of_token_eq distinct listed member found.1

theorem whole?_eq_none {ops : List (Operator m C)} (other : ∀ op ∈ ops, op.token.toList ≠ piece) :
    whole? spacing (Entry.table ops) piece behind = none := by
  cases found : whole? spacing (Entry.table ops) piece behind with
  | none => rfl
  | some entry =>
    obtain ⟨member, token, _⟩ := whole?_eq_some found
    rw [Entry.token_of_mem_table member] at token
    exact absurd token (other _ (Entry.op_mem_of_mem_table member))

theorem mark_constant_token (distinct : (v.constants.map fun op => op.token.toList).Nodup)
    (member : entry ∈ Entry.table v.constants) (split : entry.token = read ++ [c])
    (solid : ∀ d ∈ entry.token, isBlank d = false) (blank : ∀ d ∈ buffer, isBlank d)
    (boundary : behind.head?.any Char.isAlphanum = false) :
    mark (.ofVocabulary v spacing) false (read.reverse ++ buffer) c behind = .constant entry := by
  have found : whole? spacing (Entry.table v.constants) (read ++ [c]) behind = some entry := by
    rw [← split]
    exact whole?_eq distinct member (by simp [split]) (by rw [boundary, Bool.and_false])
  rw [split] at solid
  unfold mark
  rw [candidate_of_solid solid blank]
  simp only [Grammar.ofVocabulary, found]

theorem mark_unary_token (distinct : (v.unary.map fun op => op.token.toList).Nodup)
    (constants : ∀ op ∈ v.constants, op.token.toList ≠ entry.token)
    (member : entry ∈ Entry.table v.unary) (split : entry.token = read ++ [c])
    (solid : ∀ d ∈ entry.token, isBlank d = false) (blank : ∀ d ∈ buffer, isBlank d)
    (apart : (spacing.separates entry.word && behind.head?.any Char.isAlphanum) = false) :
    mark (.ofVocabulary v spacing) false (read.reverse ++ buffer) c behind = .unary entry := by
  have found : whole? spacing (Entry.table v.unary) (read ++ [c]) behind = some entry := by
    rw [← split]
    exact whole?_eq distinct member (by simp [split]) apart
  rw [split] at solid constants
  unfold mark
  rw [candidate_of_solid solid blank]
  simp only [Grammar.ofVocabulary, whole?_eq_none constants, found]

end Scan

namespace Grammar

theorem reads_constant (distinct : (v.constants.map fun op => op.token.toList).Nodup)
    (member : entry ∈ Entry.table v.constants) (split : entry.token = read ++ [c])
    (solid : ∀ d ∈ entry.token, isBlank d = false)
    (unbroken : Scan.Unbroken (.ofVocabulary v spacing) read (c :: behind))
    (boundary : behind.head?.any Char.isAlphanum = false) :
    (Grammar.ofVocabulary v spacing).ReadsAs entry.token (.constant entry.op) behind := by
  intro inside groups spine s fresh
  have quiet : Scan.Quiet (.ofVocabulary v spacing) s.closed s.buffer read (c :: behind) := by
    rw [fresh.closed]
    exact Scan.quiet_unbroken unbroken fresh.blank
  have marked : Scan.mark (.ofVocabulary v spacing) s.closed (read.reverse ++ s.buffer) c behind =
      .constant entry := by
    rw [fresh.closed]
    exact Scan.mark_constant_token distinct member split solid fresh.blank boundary
  have text : entry.token ++ behind = read ++ c :: behind := by simp [split]
  have found := congrArg (Scan.act { s with buffer := read.reverse ++ s.buffer } c) marked
  refine ⟨s.start + byteLength (c :: (read.reverse ++ s.buffer)), ?_⟩
  rw [text, Scan.read_quiet quiet]
  exact Scan.read_found found (.constant spine rfl entry rfl)

/-- A unary token before a blank is read as its operator, whatever stands behind the blank. -/
theorem read_unary_token (blankFree : v.Avoids ' ')
    (distinct : (v.unary.map fun op => op.token.toList).Nodup)
    (constants : ∀ op ∈ v.constants, op.token.toList ≠ entry.token)
    (member : entry ∈ Entry.table v.unary) (split : entry.token = read ++ [c])
    (solid : ∀ d ∈ entry.token, isBlank d = false)
    (unbroken : Scan.Unbroken (.ofVocabulary v spacing) read (c :: ' ' :: behind)) {inside : Bool}
    {a : Assembly m C} {s : Scan m C} (fresh : s.Fresh) :
    ∃ start, (Grammar.ofVocabulary v spacing).read inside a s (entry.token ++ ' ' :: behind) =
      (Grammar.ofVocabulary v spacing).read inside a ⟨false, entry.op :: s.unary, start, [' ']⟩ behind := by
  have quiet : Scan.Quiet (.ofVocabulary v spacing) s.closed s.buffer read (c :: ' ' :: behind) := by
    rw [fresh.closed]
    exact Scan.quiet_unbroken unbroken fresh.blank
  have marked : Scan.mark (.ofVocabulary v spacing) s.closed (read.reverse ++ s.buffer) c (' ' :: behind) =
      .unary entry := by
    rw [fresh.closed]
    exact Scan.mark_unary_token distinct constants member split solid fresh.blank (Bool.and_false _)
  have text : entry.token ++ ' ' :: behind = read ++ c :: ' ' :: behind := by simp [split]
  let later : Scan m C := ⟨s.closed, entry.op :: s.unary, s.start + byteLength (c :: (read.reverse ++ s.buffer)), []⟩
  have closed : later.closed = false := fresh.closed
  refine ⟨later.start, ?_⟩
  rw [text, Scan.read_quiet quiet, Scan.read_unary marked]
  refine (Scan.read_blank (s := later) (ofVocabulary_avoids blankFree spacing) closed rfl).trans ?_
  rw [closed]

end Grammar

/-! ## Uncut tokens -/

/-- Whether the scan meets no other token before the last character of this one. A constant or a unary operator
at its start is passed over if it has to be separated from a letter or digit behind it, a binary operator further
on if it has to be separated or if a longer one ends or starts where it does. -/
structure Vocabulary.Uncut (v : Vocabulary m C) (spacing : Spacing) (token : List Char) : Prop where
  starting : ∀ other ∈ v.constants ++ v.unary, ∀ later, token = other.token.toList ++ later →
    other.token.toList ≠ [] → later ≠ [] →
      spacing.separates (isWord other.token.toList) ∧ later.head?.any Char.isAlphanum
  inner : ∀ other ∈ v.binary, ∀ before later, token = before ++ (other.token.toList ++ later) → before ≠ [] →
    other.token.toList ≠ [] → later ≠ [] →
      spacing.separates (isWord other.token.toList) ∨
        ∃ longer ∈ v.binary, other.token.toList.length < longer.token.toList.length ∧
          (longer.token.toList <:+ before ++ other.token.toList ∨
            longer.token.toList <+: other.token.toList ++ later)

/-- A longer token that ends or starts where another one does is one of those that are recorded for it. -/
theorem Scan.covered_of_longer {op : Operator m C} {before later : List Char} {ops : List (Operator m C)}
    (member : entry ∈ Entry.table ops) (listed : op ∈ ops) (longer : entry.token.length < op.token.toList.length)
    (overlaps : op.token.toList <:+ before ++ entry.token ∨ op.token.toList <+: entry.token ++ later) :
    Covered entry before later := by
  have token := List.mem_map_of_mem (f := fun op => op.token.toList) listed
  have some : ∀ more : List Char, op.token.toList.length = entry.token.length + more.length → more ≠ [] := by
    rintro more length rfl
    rw [length] at longer
    exact Nat.lt_irrefl _ longer
  rcases overlaps with ending | starting
  · obtain ⟨more, split⟩ := List.suffix_of_suffix_length_le (List.suffix_append before entry.token) ending longer.le
    refine Or.inl ⟨_, (Entry.mem_longerEnding member).mpr ⟨token, more, some more ?_, split.symm⟩, ending⟩
    rw [← split, List.length_append, Nat.add_comm]
  · obtain ⟨more, split⟩ := List.prefix_of_prefix_length_le (List.prefix_append entry.token later) starting longer.le
    refine Or.inr ⟨_, (Entry.mem_longerStarting member).mpr ⟨token, more, some more ?_, split.symm⟩, starting⟩
    rw [← split, List.length_append]

namespace Vocabulary.Uncut

theorem unbroken {op : Operator m C} (uncut : v.Uncut spacing op.token.toList) (clear : v.Clear)
    (listed : op ∈ v.constants ++ v.unary) (split : op.token.toList = read ++ [c]) (behind : List Char) :
    Scan.Unbroken (.ofVocabulary v spacing) read (c :: behind) := by
  have inToken : ∀ d ∈ read, d ∈ op.token.toList := by
    rw [split]
    exact fun d member => List.mem_append_left _ member
  constructor
  · exact fun d member => clear.isBlank_eq_false listed (inToken d member)
  · exact fun d member => clear.bracket?_eq_none listed (inToken d member)
  · intro entry member later front some
    obtain ⟨listed', token, word⟩ := mem_of_mem_tables member
    rw [token] at some
    rw [front, token, List.append_assoc] at split
    obtain ⟨separate, next⟩ := uncut.starting entry.op listed' (later ++ [c]) split some (by simp)
    rw [word]
    refine ⟨separate, ?_⟩
    cases later with
    | nil => exact next
    | cons => exact next
  · intro entry member before later inner start some
    have token := Entry.token_of_mem_table member
    have binary := Entry.op_mem_of_mem_table member
    rw [token] at some
    rw [inner, token, List.append_assoc, List.append_assoc] at split
    rw [Entry.word_of_mem_table member, token]
    refine (uncut.inner entry.op binary before _ split start some (by simp)).imp_right ?_
    rintro ⟨longer, listed', length, overlaps⟩
    rw [← token] at length overlaps
    refine Scan.covered_of_longer member listed' length (overlaps.imp_right fun starting => ?_)
    have text : entry.token ++ (later ++ c :: behind) = entry.token ++ (later ++ [c]) ++ behind := by simp
    rw [text]
    exact starting.trans (List.prefix_append ..)

theorem reads_constant (uncut : v.Uncut spacing entry.token) (clear : v.Clear)
    (distinct : (v.constants.map fun op => op.token.toList).Nodup) (member : entry ∈ Entry.table v.constants)
    (some : entry.token ≠ []) (boundary : behind.head?.any Char.isAlphanum = false) :
    (Grammar.ofVocabulary v spacing).ReadsAs entry.token (.constant entry.op) behind := by
  have listed : entry.op ∈ v.constants ++ v.unary := List.mem_append_left _ (Entry.op_mem_of_mem_table member)
  have token := Entry.token_of_mem_table member
  have split := (List.dropLast_concat_getLast some).symm
  have solid : ∀ d ∈ entry.token, isBlank d = false := by
    rw [token]
    exact fun d => clear.isBlank_eq_false listed
  have unbroken : Scan.Unbroken (.ofVocabulary v spacing) entry.token.dropLast (entry.token.getLast some :: behind) :=
    unbroken (token ▸ uncut) clear listed (token ▸ split) behind
  exact Grammar.reads_constant distinct member split solid unbroken boundary

theorem read_unary (uncut : v.Uncut spacing entry.token) (clear : v.Clear)
    (distinct : (v.unary.map fun op => op.token.toList).Nodup)
    (apart : ∀ op ∈ v.constants, op.token.toList ≠ entry.token) (member : entry ∈ Entry.table v.unary)
    (some : entry.token ≠ []) (behind : List Char) {inside : Bool} {a : Assembly m C} {s : Scan m C}
    (fresh : s.Fresh) :
    ∃ start, (Grammar.ofVocabulary v spacing).read inside a s (entry.token ++ ' ' :: behind) =
      (Grammar.ofVocabulary v spacing).read inside a ⟨false, entry.op :: s.unary, start, [' ']⟩ behind := by
  have listed : entry.op ∈ v.constants ++ v.unary := List.mem_append_right _ (Entry.op_mem_of_mem_table member)
  have token := Entry.token_of_mem_table member
  have split := (List.dropLast_concat_getLast some).symm
  have solid : ∀ d ∈ entry.token, isBlank d = false := by
    rw [token]
    exact fun d => clear.isBlank_eq_false listed
  have unbroken : Scan.Unbroken (.ofVocabulary v spacing) entry.token.dropLast
      (entry.token.getLast some :: ' ' :: behind) :=
    unbroken (token ▸ uncut) clear listed (token ▸ split) (' ' :: behind)
  exact Grammar.read_unary_token (clear.blank ' ' rfl) distinct apart member split solid unbroken fresh

theorem reads_unary (uncut : v.Uncut spacing entry.token) (clear : v.Clear)
    (distinct : (v.unary.map fun op => op.token.toList).Nodup)
    (apart : ∀ op ∈ v.constants, op.token.toList ≠ entry.token) (member : entry ∈ Entry.table v.unary)
    (some : entry.token ≠ []) (reads : (Grammar.ofVocabulary v spacing).ReadsAs piece t behind) :
    (Grammar.ofVocabulary v spacing).ReadsAs (entry.token ++ ' ' :: piece) (.unary entry.op t) behind := by
  intro inside groups spine s fresh
  obtain ⟨next, operator⟩ := uncut.read_unary clear distinct apart member some (piece ++ behind) fresh
  obtain ⟨start, operand⟩ := reads inside groups spine ⟨false, entry.op :: s.unary, next, [' ']⟩ ⟨rfl, Or.inr rfl⟩
  have wrapped : Tree.wrap (entry.op :: s.unary).reverse t = Tree.wrap s.unary.reverse (.unary entry.op t) := by
    rw [Tree.wrap, Tree.wrap, List.reverse_cons, List.foldr_append]
    rfl
  refine ⟨start, ?_⟩
  rw [List.append_assoc, List.cons_append, operator, operand, wrapped]

end Vocabulary.Uncut

/-! ## Legible vocabularies -/

namespace Vocabulary.Legible

theorem uncut {op : Operator m C} (legible : v.Legible spacing) (listed : op ∈ v.constants ++ v.unary)
    (intact : v.Intact spacing op.token) : v.Uncut spacing op.token.toList where
  starting := legible.starting op listed
  inner other member before later split start some more :=
    Or.inl (intact other member before later split start some more)

theorem reads_constant (legible : v.Legible spacing) (member : entry ∈ Entry.table v.constants)
    (some : entry.token ≠ []) (readable : spacing = .optional → entry.op.token ≠ "undefined")
    (boundary : behind.head?.any Char.isAlphanum = false) :
    (Grammar.ofVocabulary v spacing).ReadsAs entry.token (.constant entry.op) behind := by
  have constant := Entry.op_mem_of_mem_table member
  have uncut := legible.uncut (List.mem_append_left _ constant) (legible.intact _ constant readable)
  rw [← Entry.token_of_mem_table member] at uncut
  exact uncut.reads_constant legible.clear legible.constants member some boundary

theorem uncut_unary (legible : v.Legible spacing) (member : entry ∈ Entry.table v.unary) :
    v.Uncut spacing entry.token ∧ ∀ op ∈ v.constants, op.token.toList ≠ entry.token := by
  have unary := Entry.op_mem_of_mem_table member
  rw [Entry.token_of_mem_table member]
  exact ⟨legible.uncut (List.mem_append_right _ unary) (legible.intactUnary _ unary),
    fun op constant => legible.apart op constant entry.op unary⟩

theorem read_unary (legible : v.Legible spacing) (member : entry ∈ Entry.table v.unary)
    (some : entry.token ≠ []) (behind : List Char) {inside : Bool} {a : Assembly m C} {s : Scan m C} (fresh : s.Fresh) :
    ∃ start, (Grammar.ofVocabulary v spacing).read inside a s (entry.token ++ ' ' :: behind) =
      (Grammar.ofVocabulary v spacing).read inside a ⟨false, entry.op :: s.unary, start, [' ']⟩ behind := by
  obtain ⟨uncut, apart⟩ := legible.uncut_unary member
  exact uncut.read_unary legible.clear legible.unary apart member some behind fresh

theorem reads_unary (legible : v.Legible spacing) (member : entry ∈ Entry.table v.unary)
    (some : entry.token ≠ []) (reads : (Grammar.ofVocabulary v spacing).ReadsAs piece t behind) :
    (Grammar.ofVocabulary v spacing).ReadsAs (entry.token ++ ' ' :: piece) (.unary entry.op t) behind := by
  obtain ⟨uncut, apart⟩ := legible.uncut_unary member
  exact uncut.reads_unary legible.clear legible.unary apart member some reads

end Vocabulary.Legible

end Formula
