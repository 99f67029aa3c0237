import Formula.Proofs.Spaced

/-!
# Quiet text

Pieces of text in which nothing is recognized: what stands between quotes, and text without blanks in
which each token would have to be separated.
-/

namespace Formula.Scan

variable {m : Type → Type} {C : Type} {g : Grammar m C} {closed : Bool} {spacing : Spacing}
  {piece buffer blanks read next behind rest : List Char} {c quote : Char} {entry : Entry m C}

/-! ## Between quotes -/

theorem isBlank_of_isQuote (marks : isQuote quote) : isBlank quote = false := by
  simp only [isQuote, Bool.or_eq_true, beq_iff_eq] at marks
  rcases marks with rfl | rfl <;> rfl

theorem bracket?_of_isQuote (marks : isQuote quote) : (bracket? quote : Option (Stop m C)) = none := by
  refine bracket?_eq_none ?_ ?_ <;>
  · rintro rfl
    cases marks

/-- A quote is open as long as it does not occur again. -/
theorem isOpenQuote_trim (marks : isQuote quote) (blank : ∀ d ∈ blanks, isBlank d)
    (once : quote ∉ read) : isOpenQuote (trim (blanks ++ quote :: read)) := by
  obtain ⟨kept, text, start⟩ := exists_trim_cons (isBlank_of_isQuote marks) read
  have unclosed : kept.getLast? ≠ some quote :=
    fun last => once (start.subset (List.mem_of_getLast? last))
  rw [trim_append_of_blanks blank, text, isOpenQuote, marks, Bool.true_and, bne_iff_ne]
  exact unclosed

theorem mark_quote (avoids : g.Avoids quote) (marks : isQuote quote) :
    mark g closed buffer quote rest = .nothing := by
  rw [mark_of_avoids avoids (isBlank_of_isQuote marks), bracket?_of_isQuote marks]
  rfl

/-- Behind an open quote an operator has no operand, and brackets are text. -/
theorem mark_quoted (avoids : g.Avoids quote) (marks : isQuote quote)
    (blank : ∀ d ∈ buffer, isBlank d) (once : quote ∉ read) (other : quote ≠ c) :
    mark g false (read.reverse ++ quote :: buffer) c rest = .nothing := by
  have reversed : ∀ text : List Char, (text.reverse ++ quote :: buffer).reverse = buffer.reverse ++ quote :: text := by
    simp
  have blanks : ∀ d ∈ buffer.reverse, isBlank d := fun d member => blank d (List.mem_reverse.mp member)
  have whole : ∀ entries : List (Entry m C), (∀ entry ∈ entries, entry.Avoids quote) →
      whole? g.spacing entries (candidate false (c :: (read.reverse ++ quote :: buffer))) rest = none := by
    intro entries avoid
    refine whole?_of_mem avoid (mem_trim ?_ (isBlank_of_isQuote marks)) _ _
    simp
  have bracket : (bracket? c : Option (Stop m C)).filter
      (fun _ => !isOpenQuote (trim (read.reverse ++ quote :: buffer).reverse)) = none := by
    rw [reversed, isOpenQuote_trim marks blanks once]
    cases (bracket? c : Option (Stop m C)) <;> rfl
  have binary : g.binary.find? (endsWith g.spacing false (c :: (read.reverse ++ quote :: buffer)) rest) =
      none := by
    rw [List.find?_eq_none]
    intro entry member ends
    obtain ⟨before, split, ends⟩ := ends_within (avoids.binary entry member) ends
    have outside : quote ∉ before := by
      intro inside
      have member : quote ∈ read ++ [c] := by
        rw [split]
        exact List.mem_append_left _ inside
      simp only [List.mem_append, List.mem_singleton] at member
      exact member.elim once other
    have unquoted := ends.unquoted
    rw [reversed, isOpenQuote_trim marks blanks outside] at unquoted
    cases unquoted
  unfold mark
  rw [whole _ avoids.constants, whole _ avoids.unary, bracket, binary]

theorem quiet_quoted (avoids : g.Avoids quote) (marks : isQuote quote) (blank : ∀ d ∈ buffer, isBlank d)
    (once : quote ∉ piece) (behind : List Char) :
    Quiet g false buffer (quote :: piece ++ [quote]) behind := by
  have inner : ∀ next read : List Char, quote ∉ read → quote ∉ next →
      Quiet g false (read.reverse ++ quote :: buffer) next (quote :: behind) := by
    intro next
    induction next with
    | nil => exact fun _ _ _ => trivial
    | cons c next ih =>
      intro read before after
      rw [List.mem_cons, not_or] at after
      refine ⟨mark_quoted avoids marks blank before after.1, ?_⟩
      have later := ih (read ++ [c]) (by simp [before, after.1]) after.2
      simpa using later
  refine ⟨mark_quote avoids marks, quiet_append.mpr ⟨?_, mark_quote avoids marks, trivial⟩⟩
  exact inner piece [] List.not_mem_nil once

/-! ## Text without blanks -/

/-- Whether a longer token of the list ends or starts where that of the entry does, so that the entry is passed
over. -/
def Covered (entry : Entry m C) (before behind : List Char) : Prop :=
  (∃ longer ∈ entry.longerEnding, longer <:+ before ++ entry.token) ∨
    ∃ longer ∈ entry.longerStarting, longer <+: entry.token ++ behind

theorem Ends.not_covered {before : List Char}
    (ends : Ends spacing closed (before.reverse ++ buffer) behind entry) : ¬Covered entry before behind := by
  rintro (⟨longer, listed, ending⟩ | ⟨longer, listed, starting⟩)
  · refine ends.longerEnding longer listed ?_
    rw [← List.append_assoc, ← List.reverse_append]
    exact (List.reverse_prefix.mpr ending).trans (List.prefix_append ..)
  · exact ends.longerStarting longer listed starting

/-- Text of one piece in which no token can be recognized. One that is all of what has been read is
followed by more of a word, and one behind that has no blanks around it or is part of a longer one. -/
structure Unbroken (g : Grammar m C) (piece behind : List Char) : Prop where
  solid : ∀ c ∈ piece, isBlank c = false
  plain : ∀ c ∈ piece, (bracket? c : Option (Stop m C)) = none
  starting : ∀ entry ∈ g.constants ++ g.unary, ∀ later, piece = entry.token ++ later → entry.token ≠ [] →
    g.spacing.separates entry.word ∧ (later ++ behind).head?.any Char.isAlphanum
  inner : ∀ entry ∈ g.binary, ∀ before later, piece = before ++ (entry.token ++ later) → before ≠ [] →
    entry.token ≠ [] → g.spacing.separates entry.word ∨ Covered entry before (later ++ behind)

theorem whole?_unbroken {entries : List (Entry m C)}
    (starting : ∀ entry ∈ entries, entry.token = piece → piece ≠ [] →
      spacing.separates entry.word ∧ rest.head?.any Char.isAlphanum) :
    whole? spacing entries piece rest = none := by
  unfold whole?
  split
  · rfl
  · next some =>
    rw [List.find?_eq_none]
    intro entry member found
    simp only [Bool.and_eq_true, beq_iff_eq, Bool.not_eq_true'] at found
    obtain ⟨separate, word⟩ := starting entry member found.1 some
    rw [separate, word] at found
    cases found.2

/-- What ends in one piece of text behind blanks, and has an operand before it, is within the piece. -/
theorem ends_unbroken (blank : ∀ d ∈ buffer, isBlank d)
    (ends : endsWith spacing false (read.reverse ++ buffer) rest entry) :
    ∃ before, read = before ++ entry.token ∧ before ≠ [] ∧
      Ends spacing false (before.reverse ++ buffer) rest entry := by
  obtain ⟨left, split, ends⟩ := endsWith_iff.mp ends
  have operand : ¬∀ d ∈ left.reverse, isBlank d := by
    rw [← trim_eq_nil_iff]
    exact ends.operand.resolve_left Bool.false_ne_true
  rcases List.append_eq_append_iff.mp split with ⟨between, _, rfl⟩ | ⟨between, reversed, rfl⟩
  · refine absurd (fun d member => blank d ?_) operand
    exact List.mem_append_right _ (List.mem_reverse.mp member)
  · refine ⟨between.reverse, ?_, ?_, by rw [List.reverse_reverse]; exact ends⟩
    · have forward := congrArg List.reverse reversed
      simpa using forward
    · intro empty
      rw [List.reverse_eq_nil_iff] at empty
      rw [empty] at operand
      exact operand fun d member => blank d (List.mem_reverse.mp member)

/-- Behind blanks, one piece of text is all that has been read. -/
theorem candidate_of_solid (solid : ∀ d ∈ read ++ [c], isBlank d = false)
    (blank : ∀ d ∈ buffer, isBlank d) : candidate false (c :: (read.reverse ++ buffer)) = read ++ [c] := by
  have reversed : (c :: (read.reverse ++ buffer)).reverse = buffer.reverse ++ (read ++ [c]) := by simp
  rw [candidate, if_neg Bool.false_ne_true, reversed,
    trim_append_of_blanks (fun d member => blank d (List.mem_reverse.mp member)), trim_of_solid solid]

theorem mark_unbroken (unbroken : Unbroken g (read ++ c :: next) behind)
    (blank : ∀ d ∈ buffer, isBlank d) :
    mark g false (read.reverse ++ buffer) c (next ++ behind) = .nothing := by
  have text : read ++ c :: next = (read ++ [c]) ++ next := by simp
  have solid : ∀ d ∈ read ++ [c], isBlank d = false := by
    intro d member
    refine unbroken.solid d ?_
    rw [text]
    exact List.mem_append_left _ member
  have whole : ∀ entries, entries ⊆ g.constants ++ g.unary →
      whole? g.spacing entries (read ++ [c]) (next ++ behind) = none := by
    intro entries listed
    refine whole?_unbroken fun entry member token some => ?_
    exact unbroken.starting entry (listed member) next (by rw [token, text]) (by rw [token]; exact some)
  have bracket : (bracket? c : Option (Stop m C)).filter
      (fun _ => !isOpenQuote (trim (read.reverse ++ buffer).reverse)) = none := by
    rw [unbroken.plain c (by simp)]
    rfl
  have binary : g.binary.find? (endsWith g.spacing false (c :: (read.reverse ++ buffer)) (next ++ behind)) =
      none := by
    rw [List.find?_eq_none]
    intro entry member ends
    have reversed : c :: (read.reverse ++ buffer) = (read ++ [c]).reverse ++ buffer := by simp
    rw [reversed] at ends
    obtain ⟨before, split, some, ends⟩ := ends_unbroken blank ends
    have separate :=
      (unbroken.inner entry member before next (by rw [text, split, List.append_assoc]) some
        ends.some).resolve_right ends.not_covered
    obtain ⟨front, last, rfl⟩ : ∃ front last, before = front ++ [last] :=
      ⟨_, _, (List.dropLast_concat_getLast some).symm⟩
    have blankBefore := (ends.separated separate).2
    have inside : last ∈ read ++ [c] := by simp [split]
    rw [List.reverse_append, List.reverse_singleton, List.singleton_append, List.cons_append,
      List.head?_cons, Option.any_some, solid last inside] at blankBefore
    cases blankBefore
  unfold mark
  rw [candidate_of_solid solid blank, whole _ (List.subset_append_left ..), whole _ (List.subset_append_right ..), bracket,
    binary]

theorem quiet_unbroken (unbroken : Unbroken g piece behind) (blank : ∀ d ∈ buffer, isBlank d) :
    Quiet g false buffer piece behind := by
  have inner : ∀ next read : List Char, piece = read ++ next →
      Quiet g false (read.reverse ++ buffer) next behind := by
    intro next
    induction next with
    | nil => exact fun _ _ => trivial
    | cons c next ih =>
      intro read split
      rw [split] at unbroken
      refine ⟨mark_unbroken unbroken blank, ?_⟩
      have later := ih (read ++ [c]) (by simp [split])
      simpa using later
  exact inner piece [] rfl

end Formula.Scan
