import Mathlib.Data.List.TakeWhile
import Formula.Text.Blank

/-!
# Trimming

What stays of a text when the blanks around it are left out.
-/

namespace Formula

theorem mem_dropWhile {p : Char → Bool} {c : Char} {text : List Char} (member : c ∈ text)
    (kept : p c = false) : c ∈ text.dropWhile p := by
  induction text with
  | nil => exact member
  | cons first rest ih =>
    rw [List.dropWhile_cons]
    split
    · next dropped =>
      rcases List.mem_cons.mp member with rfl | later
      · rw [kept] at dropped
        cases dropped
      · exact ih later
    · exact member

theorem dropWhile_append_of_mem {p : Char → Bool} {c : Char} {text : List Char} (member : c ∈ text)
    (kept : p c = false) (behind : List Char) :
    (text ++ behind).dropWhile p = text.dropWhile p ++ behind := by
  rw [List.dropWhile_append, if_neg]
  rw [List.isEmpty_iff]
  exact List.ne_nil_of_mem (mem_dropWhile member kept)

theorem mem_trim {c : Char} {text : List Char} (member : c ∈ text) (solid : isBlank c = false) :
    c ∈ trim text := by
  unfold trim trimRight
  rw [List.mem_reverse]
  exact mem_dropWhile (List.mem_reverse.mpr (mem_dropWhile member solid)) solid

theorem trim_eq_nil_iff {text : List Char} : trim text = [] ↔ ∀ c ∈ text, isBlank c := by
  constructor
  · intro empty c member
    cases solid : isBlank c with
    | true => rfl
    | false =>
      have kept := mem_trim member solid
      rw [empty] at kept
      cases kept
  · intro blanks
    rw [trim, trimLeft, List.dropWhile_eq_nil_iff.mpr blanks]
    rfl

theorem trimRight_append_blank {c : Char} (blank : isBlank c) (text : List Char) :
    trimRight (text ++ [c]) = trimRight text := by
  rw [trimRight, List.reverse_append]
  simp only [List.reverse_cons, List.reverse_nil, List.nil_append, List.cons_append,
    List.dropWhile_cons, blank, if_true]
  rfl

theorem trim_append_blank {c : Char} (blank : isBlank c) (text : List Char) :
    trim (text ++ [c]) = trim text := by
  by_cases solid : ∃ d ∈ text, isBlank d = false
  · obtain ⟨d, member, solid⟩ := solid
    rw [trim, trimLeft, dropWhile_append_of_mem member solid, trimRight_append_blank blank]
    rfl
  · have blanks : ∀ d ∈ text, isBlank d := by simpa using solid
    have all : ∀ d ∈ text ++ [c], isBlank d := by
      intro d member
      rcases List.mem_append.mp member with before | last
      · exact blanks d before
      · rw [List.mem_singleton.mp last]
        exact blank
    rw [trim_eq_nil_iff.mpr all, trim_eq_nil_iff.mpr blanks]

theorem trim_append_blanks {blanks : List Char} (are : ∀ c ∈ blanks, isBlank c) (text : List Char) :
    trim (text ++ blanks) = trim text := by
  induction blanks generalizing text with
  | nil => rw [List.append_nil]
  | cons c rest ih =>
    obtain ⟨blank, others⟩ := List.forall_mem_cons.mp are
    rw [List.append_cons, ih others, trim_append_blank blank]

/-- A blank between characters that are none stays. -/
theorem mem_trim_between {before behind : List Char} {c d e : Char} (first : d ∈ before)
    (solid : isBlank d = false) (last : e ∈ behind) (solid' : isBlank e = false) :
    c ∈ trim (before ++ c :: behind) := by
  have left : trimLeft (before ++ c :: behind) = trimLeft before ++ c :: behind :=
    dropWhile_append_of_mem first solid _
  rw [trim, left, trimRight, List.reverse_append, List.reverse_cons, List.append_assoc,
    dropWhile_append_of_mem (List.mem_reverse.mpr last) solid']
  simp

theorem trim_append_of_blanks {blanks : List Char} (are : ∀ c ∈ blanks, isBlank c) (text : List Char) :
    trim (blanks ++ text) = trim text := by
  rw [trim, trim, trimLeft, List.dropWhile_append_of_pos are, trimLeft]

/-- A buffer of blanks before a text, both last character first. -/
theorem trim_reverse_append {buffer : List Char} (blank : ∀ c ∈ buffer, isBlank c) (text : List Char) :
    trim (text.reverse ++ buffer).reverse = trim text := by
  rw [List.reverse_append, List.reverse_reverse]
  exact trim_append_of_blanks (fun c member => blank c (List.mem_reverse.mp member)) text

theorem dropWhile_of_head? {p : Char → Bool} {text : List Char} (first : text.head?.any p = false) :
    text.dropWhile p = text := by
  cases text with
  | nil => rfl
  | cons c rest =>
    have kept : p c = false := first
    rw [List.dropWhile_cons, kept]
    rfl

theorem trim_eq_self {text : List Char} (first : text.head?.any isBlank = false)
    (last : text.getLast?.any isBlank = false) : trim text = text := by
  rw [List.getLast?_eq_head?_reverse] at last
  rw [trim, trimLeft, dropWhile_of_head? first, trimRight, dropWhile_of_head? last,
    List.reverse_reverse]

theorem trim_of_solid {text : List Char} (solid : ∀ c ∈ text, isBlank c = false) : trim text = text := by
  refine trim_eq_self ?_ ?_
  · rw [Option.any_eq_false]
    exact fun c first => by simp [solid c (List.mem_of_head? first)]
  · rw [Option.any_eq_false]
    exact fun c last => by simp [solid c (List.mem_of_getLast? last)]

theorem exists_trim_behind (text : List Char) :
    ∃ behind, text = text.takeWhile isBlank ++ (trim text ++ behind) ∧ ∀ c ∈ behind, isBlank c := by
  refine ⟨((trimLeft text).reverse.takeWhile isBlank).reverse, ?_, ?_⟩
  · have right := congrArg List.reverse
      (List.takeWhile_append_dropWhile (p := isBlank) (l := (trimLeft text).reverse))
    rw [List.reverse_append, List.reverse_reverse] at right
    rw [trim, trimRight, right, trimLeft, List.takeWhile_append_dropWhile]
  · exact fun c member => List.mem_takeWhile_imp (List.mem_reverse.mp member)

theorem exists_trim_split (text : List Char) :
    ∃ before behind, text = before ++ (trim text ++ behind) ∧ (∀ c ∈ before, isBlank c) ∧
      ∀ c ∈ behind, isBlank c := by
  obtain ⟨behind, split, blank⟩ := exists_trim_behind text
  exact ⟨_, behind, split, fun c member => List.mem_takeWhile_imp member, blank⟩

/-- A text that starts with a character that is no blank loses only what stands at its end. -/
theorem exists_trim_cons {c : Char} (solid : isBlank c = false) (rest : List Char) :
    ∃ kept, trim (c :: rest) = c :: kept ∧ kept <+: rest := by
  obtain ⟨before, behind, split, blank, _⟩ := exists_trim_split (c :: rest)
  cases before with
  | nil =>
    cases kept : trim (c :: rest) with
    | nil =>
      have blanks := trim_eq_nil_iff.mp kept c (List.mem_cons_self ..)
      rw [solid] at blanks
      cases blanks
    | cons first kept' =>
      rw [kept, List.nil_append, List.cons_append, List.cons.injEq] at split
      exact ⟨kept', by rw [split.1], behind, split.2.symm⟩
  | cons first before =>
    rw [List.cons_append, List.cons.injEq] at split
    have blanks := blank first (List.mem_cons_self ..)
    rw [← split.1, solid] at blanks
    cases blanks

theorem head?_dropWhile_isBlank (text : List Char) :
    (text.dropWhile isBlank).head?.any isBlank = false := by
  have first := List.head?_dropWhile_not isBlank text
  cases kept : (text.dropWhile isBlank).head? with
  | none => rfl
  | some c =>
    rw [kept] at first
    exact first

theorem getLast?_trim (text : List Char) : (trim text).getLast?.any isBlank = false := by
  rw [trim, trimRight, List.getLast?_reverse]
  exact head?_dropWhile_isBlank _

theorem head?_trim (text : List Char) : (trim text).head?.any isBlank = false := by
  have start : trim text <+: trimLeft text := by
    rw [trim, trimRight, ← List.reverse_suffix, List.reverse_reverse]
    exact List.dropWhile_suffix isBlank
  cases kept : trim text with
  | nil => rfl
  | cons c rest =>
    obtain ⟨behind, whole⟩ := start
    have first := head?_dropWhile_isBlank text
    rw [trimLeft, kept] at whole
    rwa [← whole] at first

/-- A text that ends with a character that is no blank loses only the blanks before it. -/
theorem takeWhile_append_trim {c : Char} (solid : isBlank c = false) (text : List Char) :
    (text ++ [c]).takeWhile isBlank ++ trim (text ++ [c]) = text ++ [c] := by
  obtain ⟨behind, split, blank⟩ := exists_trim_behind (text ++ [c])
  rcases List.eq_nil_or_concat behind with rfl | ⟨before, d, rfl⟩
  · rw [List.append_nil] at split
    exact split.symm
  · have last := congrArg List.getLast? split
    simp only [← List.append_assoc, List.concat_eq_append, List.getLast?_concat, Option.some.injEq]
      at last
    have blank := blank c (by simp [last])
    rw [solid] at blank
    cases blank

end Formula
