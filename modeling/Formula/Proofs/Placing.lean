import Formula.Proofs.Refusing

/-!
# Places in the text

The buffer of a scan is the text since its start, so the places that phrases and errors name are those
of the operand and of the bracket in the text itself.
-/

namespace Formula

variable {m : Type → Type} {C : Type}

namespace Scan

variable {g : Grammar m C} {s next : Scan m C} {c : Char} {read rest : List Char} {p : Phrase m C}

/-- Where the text behind the buffer and `read` starts. -/
def placeBehind (s : Scan m C) (read : List Char) : Nat :=
  s.start + byteLength (s.buffer.reverse ++ read)

/-- A scan that reads on leaves behind only what has gone into a unary operator. -/
theorem start_of_more (more : s.act c (mark g s.closed s.buffer c rest) = .more next) :
    ∃ passed,
      (∀ text, s.buffer.reverse ++ c :: text = passed ++ (next.buffer.reverse ++ text)) ∧
        next.start = s.start + byteLength passed := by
  cases moves_of_more more with
  | unary =>
    refine ⟨s.buffer.reverse ++ [c], fun text => by simp, ?_⟩
    rw [← List.reverse_cons, byteLength_reverse]
  | nothing => exact ⟨[], fun text => by simp, rfl⟩

theorem placeBehind_of_more (more : s.act c (mark g s.closed s.buffer c rest) = .more next) :
    next.placeBehind read = s.placeBehind (c :: read) := by
  obtain ⟨passed, same, start⟩ := start_of_more more
  rw [placeBehind, placeBehind, same, byteLength_append passed, start, Nat.add_assoc]

/-- What a phrase takes from the buffer: its operand ends where its stop starts. -/
theorem operand_of_found (found : s.act c (mark g s.closed s.buffer c rest) = .found p) :
    ∃ left right, s.buffer.reverse ++ [c] = left ++ right ∧ p.operand = trim left ∧
      p.operandStart = s.start + byteLength (left.takeWhile isBlank) := by
  cases stops_of_found found with
  | constant entry =>
    refine ⟨_, _, (List.takeWhile_append_dropWhile (p := isBlank)).symm, ?_, ?_⟩
    · rw [← List.reverse_cons]
      rfl
    · rw [← List.reverse_cons]
      rfl
  | bracket => exact ⟨s.buffer.reverse, [c], rfl, rfl, rfl⟩
  | binary entry left _ split => exact ⟨left.reverse, entry.token, split, rfl, rfl⟩

theorem next_of_found (found : s.act c (mark g s.closed s.buffer c rest) = .found p) :
    p.next = s.placeBehind [c] := by
  cases stops_of_found found with
  | constant => rw [placeBehind, ← List.reverse_cons, byteLength_reverse]
  | bracket =>
    rw [placeBehind, byteLength_append, ← Nat.add_assoc]
    rfl
  | binary entry left _ split =>
    rw [placeBehind, split, byteLength_append, ← Nat.add_assoc]
    rfl

theorem placeBehind_after (found : s.act c (mark g s.closed s.buffer c rest) = .found p) :
    (after p).placeBehind read = s.placeBehind (c :: read) := by
  have text : s.buffer.reverse ++ c :: read = (s.buffer.reverse ++ [c]) ++ read := by simp
  calc (after p).placeBehind read
    _ = p.next + byteLength read := by rw [after_eq]; rfl
    _ = s.start + byteLength (s.buffer.reverse ++ [c]) + byteLength read := by
      rw [next_of_found found, placeBehind]
    _ = s.placeBehind (c :: read) := by rw [placeBehind, text, byteLength_append _ read, Nat.add_assoc]

/-- A bracket ends the buffer before it. -/
theorem phrase_of_bracket {stop : Stop m C}
    (found : s.act c (mark g s.closed s.buffer c rest) = .found p) (bracket : p.stop = stop)
    (kind : stop = .opening ∨ stop = .closing) :
    bracket? c = some stop ∧ p = s.phrase s.buffer.reverse stop c.utf8Size := by
  cases stops_of_found found with
  | bracket other written =>
    have same : other = stop := bracket
    subst same
    exact ⟨written, rfl⟩
  | constant | binary => rcases kind with rfl | rfl <;> cases bracket

theorem phrase_of_opening (found : s.act c (mark g s.closed s.buffer c rest) = .found p)
    (stop : p.stop = .opening) : c = '(' ∧ p = s.phrase s.buffer.reverse .opening 1 := by
  obtain ⟨bracket, phrase⟩ := phrase_of_bracket found stop (Or.inl rfl)
  rcases eq_of_bracket? bracket with ⟨rfl, _⟩ | ⟨_, other⟩
  · exact ⟨rfl, phrase⟩
  · cases other

theorem phrase_of_closing (found : s.act c (mark g s.closed s.buffer c rest) = .found p)
    (stop : p.stop = .closing) : c = ')' ∧ p = s.phrase s.buffer.reverse .closing 1 := by
  obtain ⟨bracket, phrase⟩ := phrase_of_bracket found stop (Or.inr rfl)
  rcases eq_of_bracket? bracket with ⟨_, other⟩ | ⟨rfl, _⟩
  · cases other
  · exact ⟨rfl, phrase⟩

/-- A binary operator takes its token from the end of the buffer. -/
theorem phrase_of_binary {entry : Entry m C}
    (found : s.act c (mark g s.closed s.buffer c rest) = .found p) (stop : p.stop = .binary entry) :
    ∃ left, s.buffer.reverse ++ [c] = left.reverse ++ entry.token ∧
      p = s.phrase left.reverse (.binary entry) (byteLength entry.token) ∧
        entry ∈ g.binary ∧ Ends g.spacing s.closed left rest entry := by
  cases stops_of_found found with
  | binary other left member split ends =>
    cases stop
    exact ⟨left, split, rfl, member, ends⟩
  | bracket other written => rcases eq_of_bracket? written with ⟨_, rfl⟩ | ⟨_, rfl⟩ <;> cases stop
  | constant => cases stop

/-- Whether a piece stands at a position of the text from the start of the buffer on. -/
def Shows (s : Scan m C) (text piece : List Char) (position : Nat) : Prop :=
  ∃ left right, s.buffer.reverse ++ text = left ++ (piece ++ right) ∧
    position = s.start + byteLength left

section

variable {piece : List Char} {position : Nat}

theorem Shows.of_more (shows : next.Shows rest piece position)
    (more : s.act c (mark g s.closed s.buffer c rest) = .more next) :
    s.Shows (c :: rest) piece position := by
  obtain ⟨left, right, split, place⟩ := shows
  obtain ⟨passed, same, start⟩ := start_of_more more
  refine ⟨passed ++ left, right, ?_, ?_⟩
  · rw [same, split, List.append_assoc]
  · rw [place, start, byteLength_append, Nat.add_assoc]

theorem Shows.of_found (shows : (after p).Shows rest piece position)
    (found : s.act c (mark g s.closed s.buffer c rest) = .found p) :
    s.Shows (c :: rest) piece position := by
  obtain ⟨left, right, split, place⟩ := shows
  rw [after_eq] at split place
  have behind : rest = left ++ (piece ++ right) := split
  refine ⟨s.buffer.reverse ++ c :: left, right, by rw [behind]; simp, ?_⟩
  have passed : s.buffer.reverse ++ c :: left = (s.buffer.reverse ++ [c]) ++ left := by simp
  rw [place, startingAt, next_of_found found, placeBehind, passed, byteLength_append _ left,
    Nat.add_assoc]

theorem shows_operand (found : s.act c (mark g s.closed s.buffer c rest) = .found p) :
    s.Shows (c :: rest) p.operand p.operandStart := by
  obtain ⟨left, right, split, operand, start⟩ := operand_of_found found
  obtain ⟨behind, around, _⟩ := exists_trim_behind left
  refine ⟨left.takeWhile isBlank, behind ++ (right ++ rest), ?_, start⟩
  calc s.buffer.reverse ++ c :: rest
    _ = (s.buffer.reverse ++ [c]) ++ rest := by simp
    _ = left.takeWhile isBlank ++ (trim left ++ behind) ++ (right ++ rest) := by
      rw [split, ← around, List.append_assoc]
    _ = left.takeWhile isBlank ++ (p.operand ++ (behind ++ (right ++ rest))) := by
      rw [operand, List.append_assoc, List.append_assoc]

theorem shows_finish (s : Scan m C) : s.Shows [] s.finish.operand s.finish.operandStart := by
  obtain ⟨behind, around, _⟩ := exists_trim_behind s.buffer.reverse
  exact ⟨_, behind, (List.append_nil _).trans around, rfl⟩

theorem shows_opening (found : s.act c (mark g s.closed s.buffer c rest) = .found p)
    (stop : p.stop = .opening) : s.Shows (c :: rest) ['('] p.stopStart := by
  obtain ⟨rfl, rfl⟩ := phrase_of_opening found stop
  exact ⟨s.buffer.reverse, rest, rfl, rfl⟩

theorem shows_constant {entry : Entry m C}
    (found : s.act c (mark g s.closed s.buffer c rest) = .found p) (stop : p.stop = .constant entry) :
    s.Shows (c :: rest) entry.token p.stopStart ∧ entry.token ≠ [] := by
  cases stops_of_found found with
  | constant other marked =>
    cases stop
    obtain ⟨_, token, front, some⟩ := mark_constant marked
    obtain ⟨behind, around, _⟩ := exists_trim_behind (c :: s.buffer).reverse
    have whole : entry.token = trim (c :: s.buffer).reverse := by
      rw [token, candidate, front]
      rfl
    refine ⟨⟨(c :: s.buffer).reverse.takeWhile isBlank, behind ++ rest, ?_, rfl⟩, some⟩
    calc s.buffer.reverse ++ c :: rest
      _ = (c :: s.buffer).reverse ++ rest := by simp
      _ = (c :: s.buffer).reverse.takeWhile isBlank ++ (entry.token ++ behind) ++ rest := by
        rw [whole, ← around]
      _ = _ := by rw [List.append_assoc, List.append_assoc]
  | bracket other written => exact absurd stop (bracket?_ne_constant written entry)
  | binary => cases stop

end

end Scan

end Formula
