import Formula.Proofs.Scanning
import Formula.Proofs.Trimming

/-!
# Tokens

The tokens of a table, and the characters that none of them contains. Such a character ends every token
that is being read: it is no part of one, and what stands behind it decides nothing before it.
-/

namespace Formula

variable {m : Type → Type} {C : Type}

/-- A text without `c` is in front of another exactly if it is in front of what precedes `c` there. -/
theorem isPrefixOf_append_cons {token : List Char} {c : Char} (avoids : c ∉ token)
    (before behind : List Char) :
    token.isPrefixOf (before ++ c :: behind) = token.isPrefixOf before := by
  induction before generalizing token with
  | nil =>
    cases token with
    | nil => rfl
    | cons first rest =>
      have differs : (first == c) = false := by
        rw [beq_eq_false_iff_ne]
        rintro rfl
        exact avoids (List.mem_cons_self ..)
      simp only [List.nil_append, List.isPrefixOf, differs, Bool.false_and]
  | cons d before ih =>
    cases token with
    | nil => rfl
    | cons first rest =>
      have shorter : c ∉ rest := fun member => avoids (List.mem_cons_of_mem _ member)
      simp only [List.cons_append, List.isPrefixOf, ih shorter]

theorem find?_congr {α : Type} {xs : List α} {p q : α → Bool} (same : ∀ x ∈ xs, p x = q x) :
    xs.find? p = xs.find? q := by
  induction xs with
  | nil => rfl
  | cons x rest ih =>
    rw [List.find?_cons, List.find?_cons, same x (List.mem_cons_self ..),
      ih fun y member => same y (List.mem_cons_of_mem _ member)]

/-! ## Entries of a table -/

theorem map_toList_token (ops : List (Operator m C)) :
    (ops.map fun op => op.token.toList) = (ops.map Operator.token).map String.toList := by
  rw [List.map_map]
  rfl

theorem Entry.mem_table {ops : List (Operator m C)} {entry : Entry m C} :
    entry ∈ table ops ↔ ∃ op place, ops[place]? = some op ∧
      entry = ofOperator (ops.map fun op => op.token.toList) op place := by
  simp only [table, List.mem_map, Prod.exists, List.mem_zipIdx_iff_getElem?, eq_comm]

section

variable {ops : List (Operator m C)} {entry other : Entry m C}

theorem Entry.token_mem_of_mem_table (member : entry ∈ table ops) :
    entry.token ∈ ops.map fun op => op.token.toList := by
  obtain ⟨op, place, found, rfl⟩ := mem_table.mp member
  exact List.mem_map_of_mem (List.mem_of_getElem? found)

theorem Entry.op_mem_of_mem_table (member : entry ∈ table ops) : entry.op ∈ ops := by
  obtain ⟨op, place, found, rfl⟩ := mem_table.mp member
  exact List.mem_of_getElem? found

theorem Entry.token_of_mem_table (member : entry ∈ table ops) :
    entry.token = entry.op.token.toList := by
  obtain ⟨op, place, found, rfl⟩ := mem_table.mp member
  rfl

theorem Entry.word_of_mem_table (member : entry ∈ table ops) : entry.word = isWord entry.token := by
  obtain ⟨op, place, found, rfl⟩ := mem_table.mp member
  rfl

theorem Entry.exists_of_mem {op : Operator m C} (listed : op ∈ ops) :
    ∃ entry ∈ table ops, entry.op = op ∧ entry.token = op.token.toList := by
  obtain ⟨place, found⟩ := List.getElem?_of_mem listed
  exact ⟨_, mem_table.mpr ⟨op, place, found, rfl⟩, rfl, rfl⟩

theorem Entry.exists_of_token_mem {token : String} (listed : token ∈ ops.map Operator.token) :
    ∃ entry ∈ table ops, entry.token = token.toList ∧ entry.word = isWord token.toList := by
  obtain ⟨op, member, rfl⟩ := List.mem_map.mp listed
  obtain ⟨entry, inTable, _, token⟩ := exists_of_mem member
  exact ⟨entry, inTable, token, by rw [word_of_mem_table inTable, token]⟩

/-- Where no token is listed twice, an entry is known by its token. -/
theorem Entry.eq_of_token_eq (distinct : (ops.map fun op => op.token.toList).Nodup)
    (member : entry ∈ table ops) (member' : other ∈ table ops) (same : entry.token = other.token) :
    entry = other := by
  obtain ⟨op, place, found, rfl⟩ := mem_table.mp member
  obtain ⟨op', place', found', rfl⟩ := mem_table.mp member'
  have here : (ops.map fun op => op.token.toList)[place]? = some op.token.toList := by
    rw [List.getElem?_map, found]
    rfl
  have there : (ops.map fun op => op.token.toList)[place']? = some op.token.toList := by
    rw [List.getElem?_map, found']
    exact congrArg some same.symm
  obtain ⟨bound, _⟩ := List.getElem?_eq_some_iff.mp here
  obtain rfl : place = place' := (List.getElem?_inj bound distinct).mp (here.trans there.symm)
  obtain rfl : op = op' := Option.some.inj (found.symm.trans found')
  rfl

theorem Entry.mem_longerEnding (member : entry ∈ table ops) {token : List Char} :
    token ∈ entry.longerEnding ↔
      token ∈ ops.map (fun op => op.token.toList) ∧
        ∃ before, before ≠ [] ∧ token = before ++ entry.token := by
  obtain ⟨op, place, found, rfl⟩ := mem_table.mp member
  simp only [ofOperator, List.mem_filter, decide_eq_true_eq, List.isSuffixOf_iff_suffix, and_assoc]
  refine and_congr_right fun _ => ?_
  constructor
  · rintro ⟨longer, before, rfl⟩
    refine ⟨before, ?_, rfl⟩
    rintro rfl
    exact Nat.lt_irrefl _ longer
  · rintro ⟨before, some, rfl⟩
    have positive := List.length_pos_iff.mpr some
    exact ⟨by rw [List.length_append]; omega, before, rfl⟩

theorem Entry.mem_longerStarting (member : entry ∈ table ops) {token : List Char} :
    token ∈ entry.longerStarting ↔
      token ∈ ops.map (fun op => op.token.toList) ∧
        ∃ behind, behind ≠ [] ∧ token = entry.token ++ behind := by
  obtain ⟨op, place, found, rfl⟩ := mem_table.mp member
  simp only [ofOperator, List.mem_filter, decide_eq_true_eq, List.isPrefixOf_iff_prefix, and_assoc]
  refine and_congr_right fun _ => ?_
  constructor
  · rintro ⟨longer, behind, rfl⟩
    refine ⟨behind, ?_, rfl⟩
    rintro rfl
    simp at longer
  · rintro ⟨behind, some, rfl⟩
    have positive := List.length_pos_iff.mpr some
    exact ⟨by rw [List.length_append]; omega, behind, rfl⟩

end

/-! ## Characters in no token -/

structure Entry.Avoids (c : Char) (entry : Entry m C) : Prop where
  token : c ∉ entry.token
  longerEnding : ∀ longer ∈ entry.longerEnding, c ∉ longer
  longerStarting : ∀ longer ∈ entry.longerStarting, c ∉ longer

/-- Whether no token of the grammar contains the character. -/
structure Grammar.Avoids (c : Char) (g : Grammar m C) : Prop where
  binary : ∀ entry ∈ g.binary, entry.Avoids c
  unary : ∀ entry ∈ g.unary, entry.Avoids c
  constants : ∀ entry ∈ g.constants, entry.Avoids c

structure Vocabulary.Avoids (c : Char) (v : Vocabulary m C) : Prop where
  binary : ∀ op ∈ v.binary, c ∉ op.token.toList
  unary : ∀ op ∈ v.unary, c ∉ op.token.toList
  constants : ∀ op ∈ v.constants, c ∉ op.token.toList

theorem Entry.table_avoids {c : Char} {ops : List (Operator m C)}
    (avoid : ∀ op ∈ ops, c ∉ op.token.toList) : ∀ entry ∈ Entry.table ops, entry.Avoids c := by
  intro entry member
  have tokens : ∀ token ∈ ops.map (fun op => op.token.toList), c ∉ token := by
    simpa only [List.mem_map, forall_exists_index, and_imp, forall_apply_eq_imp_iff₂] using avoid
  refine ⟨tokens _ (token_mem_of_mem_table member), ?_, ?_⟩
  · exact fun longer found => tokens _ ((mem_longerEnding member).mp found).1
  · exact fun longer found => tokens _ ((mem_longerStarting member).mp found).1

theorem Grammar.ofVocabulary_avoids {c : Char} {v : Vocabulary m C} (avoids : v.Avoids c)
    (spacing : Spacing) : (Grammar.ofVocabulary v spacing).Avoids c :=
  ⟨Entry.table_avoids avoids.binary, Entry.table_avoids avoids.unary,
    Entry.table_avoids avoids.constants⟩

namespace Scan

theorem whole?_of_mem {entries : List (Entry m C)} {c : Char}
    (avoid : ∀ entry ∈ entries, entry.Avoids c) {text : List Char} (member : c ∈ text)
    (spacing : Spacing) (rest : List Char) : whole? spacing entries text rest = none := by
  unfold whole?
  split
  · rfl
  · rw [List.find?_eq_none]
    intro entry inTable
    have differs : (entry.token == text) = false := by
      rw [beq_eq_false_iff_ne]
      rintro rfl
      exact (avoid entry inTable).token member
    simp only [differs, Bool.false_and, Bool.false_eq_true, not_false_eq_true]

theorem endsWith_of_avoids {entry : Entry m C} {c : Char} (avoids : entry.Avoids c)
    (spacing : Spacing) (closed : Bool) (buffer rest : List Char) :
    endsWith spacing closed (c :: buffer) rest entry = false := by
  have token : entry.token.reverse.isPrefixOf (c :: buffer) = entry.token.reverse.isPrefixOf [] :=
    isPrefixOf_append_cons (fun member => avoids.token (List.mem_reverse.mp member)) [] buffer
  have empty : entry.token.reverse.isPrefixOf [] = entry.token.isEmpty := by
    rw [← List.isEmpty_reverse]
    cases entry.token.reverse <;> rfl
  unfold endsWith
  rw [token, empty]
  cases entry.token.isEmpty <;> rfl

theorem find?_endsWith_of_avoids {entries : List (Entry m C)} {c : Char}
    (avoid : ∀ entry ∈ entries, entry.Avoids c) (spacing : Spacing) (closed : Bool)
    (buffer rest : List Char) :
    entries.find? (endsWith spacing closed (c :: buffer) rest) = none := by
  rw [List.find?_eq_none]
  intro entry member
  rw [endsWith_of_avoids (avoid entry member)]
  exact Bool.false_ne_true

/-- Where a character stands that no token contains, only a bracket can be recognized. -/
theorem mark_of_avoids {g : Grammar m C} {c : Char} (avoids : g.Avoids c) (solid : isBlank c = false)
    (closed : Bool) (buffer rest : List Char) :
    mark g closed buffer c rest =
      match (bracket? c).filter fun _ => !isOpenQuote (trim buffer.reverse) with
      | some stop => .bracket stop
      | none => .nothing := by
  have whole : ∀ entries : List (Entry m C), (∀ entry ∈ entries, entry.Avoids c) →
      whole? g.spacing entries (candidate closed (c :: buffer)) rest = none := by
    intro entries avoid
    cases closed with
    | true => exact whole?_nil ..
    | false =>
      have member : c ∈ (c :: buffer).reverse := List.mem_reverse.mpr (List.mem_cons_self ..)
      exact whole?_of_mem avoid (mem_trim member solid) _ _
  unfold mark
  rewrite [whole _ avoids.constants, whole _ avoids.unary, find?_endsWith_of_avoids avoids.binary]
  cases (bracket? c : Option (Stop m C)).filter fun _ => !isOpenQuote (trim buffer.reverse) <;> rfl

theorem mark_opening {g : Grammar m C} (avoids : g.Avoids '(') (closed : Bool)
    (buffer rest : List Char) : mark g closed buffer '(' rest =
      if isOpenQuote (trim buffer.reverse) then .nothing else .bracket .opening := by
  rw [mark_of_avoids avoids (by decide)]
  cases isOpenQuote (trim buffer.reverse) <;> rfl

theorem mark_closing {g : Grammar m C} (avoids : g.Avoids ')') (closed : Bool)
    (buffer rest : List Char) : mark g closed buffer ')' rest =
      if isOpenQuote (trim buffer.reverse) then .nothing else .bracket .closing := by
  rw [mark_of_avoids avoids (by decide)]
  cases isOpenQuote (trim buffer.reverse) <;> rfl

theorem whole?_before {d : Char} (boundary : d.isAlphanum = false) (spacing : Spacing)
    (entries : List (Entry m C)) (text rest behind : List Char) :
    whole? spacing entries text (rest ++ d :: behind) = whole? spacing entries text rest := by
  have next : (rest ++ d :: behind).head?.any Char.isAlphanum = rest.head?.any Char.isAlphanum := by
    cases rest with
    | nil => exact boundary
    | cons => rfl
  unfold whole?
  rw [next]

theorem endsWith_before {entry : Entry m C} {d : Char} (avoids : entry.Avoids d)
    (solid : isBlank d = false) (spacing : Spacing) (closed : Bool)
    (reversed rest behind : List Char) :
    endsWith spacing closed reversed (rest ++ d :: behind) entry =
      endsWith spacing closed reversed rest entry := by
  have next : (rest ++ d :: behind).head?.any isBlank = rest.head?.any isBlank := by
    cases rest with
    | nil => exact solid
    | cons => rfl
  have starting : entry.longerStarting.any (·.isPrefixOf (entry.token ++ (rest ++ d :: behind))) =
      entry.longerStarting.any (·.isPrefixOf (entry.token ++ rest)) := by
    rw [Bool.eq_iff_iff, List.any_eq_true, List.any_eq_true]
    refine exists_congr fun longer => and_congr_right fun member => ?_
    rw [← List.append_assoc, isPrefixOf_append_cons (avoids.longerStarting longer member)]
  simp only [endsWith, next, starting]

/-- What stands behind a character that no token contains, and that is neither blank nor part of a
word, decides nothing before it. -/
theorem mark_before {g : Grammar m C} {d : Char} (avoids : g.Avoids d) (solid : isBlank d = false)
    (boundary : d.isAlphanum = false) (closed : Bool) (buffer : List Char) (c : Char)
    (rest behind : List Char) :
    mark g closed buffer c (rest ++ d :: behind) = mark g closed buffer c rest := by
  have binary : g.binary.find? (endsWith g.spacing closed (c :: buffer) (rest ++ d :: behind)) =
      g.binary.find? (endsWith g.spacing closed (c :: buffer) rest) := by
    refine find?_congr fun entry member => ?_
    exact endsWith_before (avoids.binary entry member) solid _ _ _ _ _
  simp only [mark, whole?_before boundary, binary]

end Scan

end Formula
