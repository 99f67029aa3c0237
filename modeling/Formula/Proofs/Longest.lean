import Formula.Proofs.Spelling

/-!
# Longest tokens

A binary operator is recognized where its token ends the buffer. No longer token of the table starts or
ends in the same place: one that stands around it in the buffer reaches beyond it on both sides, and of
such a token the inner one is recognized first.
-/

namespace Formula

variable {m : Type → Type} {C : Type}

/-! ## Places -/

/-- Whether a piece stands in a text at a byte position. -/
def StandsAt (text piece : List Char) (position : Nat) : Prop :=
  ∃ before behind, text = before ++ (piece ++ behind) ∧ byteLength before = position

section

variable {a b c d : List Char}

theorem exists_append_of_byteLength_le (same : a ++ b = c ++ d) (shorter : byteLength a ≤ byteLength c) :
    ∃ e, c = a ++ e ∧ b = e ++ d := by
  rcases List.append_eq_append_iff.mp same with ⟨e, split, rest⟩ | ⟨e, split, rest⟩
  · exact ⟨e, split, rest⟩
  · cases e with
    | nil => exact ⟨[], by rw [split, List.append_nil, List.append_nil], rest.symm⟩
    | cons first others =>
      have positive := byteLength_pos (List.cons_ne_nil first others)
      rw [split, byteLength_append] at shorter
      omega

theorem append_inj_of_byteLength_eq (same : a ++ b = c ++ d) (length : byteLength a = byteLength c) :
    a = c ∧ b = d := by
  obtain ⟨e, split, rest⟩ := exists_append_of_byteLength_le same length.le
  cases e with
  | nil => exact ⟨by rw [split, List.append_nil], rest⟩
  | cons first others =>
    have positive := byteLength_pos (List.cons_ne_nil first others)
    rw [split, byteLength_append] at length
    omega

end

namespace Scan

/-! ## Longer tokens -/

section

variable {ops : List (Operator m C)} {entry : Entry m C} {op : Operator m C} {spacing : Spacing}
  {closed : Bool} {left behind : List Char}

theorem Ends.not_longer_starting (ends : Ends spacing closed left behind entry)
    (member : entry ∈ Entry.table ops) (listed : op ∈ ops)
    (longer : byteLength entry.token < byteLength op.token.toList) :
    ¬op.token.toList <+: entry.token ++ behind := by
  rintro ⟨rest, split⟩
  obtain ⟨more, whole, _⟩ := exists_append_of_byteLength_le split.symm longer.le
  have some : more ≠ [] := by
    rintro rfl
    rw [whole, List.append_nil] at longer
    exact Nat.lt_irrefl _ longer
  have token := List.mem_map_of_mem (f := fun op => op.token.toList) listed
  exact ends.longerStarting _ ((Entry.mem_longerStarting member).mpr ⟨token, more, some, whole⟩)
    ⟨rest, split⟩

theorem Ends.not_longer_ending (ends : Ends spacing closed left behind entry)
    (member : entry ∈ Entry.table ops) (listed : op ∈ ops)
    (longer : byteLength entry.token < byteLength op.token.toList) :
    ¬op.token.toList <:+ left.reverse ++ entry.token := by
  rintro ⟨rest, split⟩
  have lengths := congrArg byteLength split
  rw [byteLength_append, byteLength_append] at lengths
  obtain ⟨more, _, whole⟩ := exists_append_of_byteLength_le split (by omega)
  have some : more ≠ [] := by
    rintro rfl
    rw [whole] at longer
    exact Nat.lt_irrefl _ longer
  have token := List.mem_map_of_mem (f := fun op => op.token.toList) listed
  refine ends.longerEnding _ ((Entry.mem_longerEnding member).mpr ⟨token, more, some, whole⟩) ?_
  rw [← List.reverse_suffix, List.reverse_append, List.reverse_reverse, List.reverse_reverse]
  exact ⟨rest, split⟩

theorem Ends.reaches_beyond (ends : Ends spacing closed left behind entry)
    (member : entry ∈ Entry.table ops) (listed : op ∈ ops)
    (longer : byteLength entry.token < byteLength op.token.toList) {before rest : List Char}
    (split : left.reverse ++ (entry.token ++ behind) = before ++ (op.token.toList ++ rest))
    (starts : byteLength before ≤ byteLength left.reverse)
    (stops : byteLength left.reverse + byteLength entry.token ≤
      byteLength before + byteLength op.token.toList) :
    byteLength before < byteLength left.reverse ∧
      byteLength left.reverse + byteLength entry.token <
        byteLength before + byteLength op.token.toList := by
  constructor
  · refine lt_of_le_of_ne starts fun same => ends.not_longer_starting member listed longer ⟨rest, ?_⟩
    exact (append_inj_of_byteLength_eq split same.symm).2.symm
  · refine lt_of_le_of_ne stops fun same => ends.not_longer_ending member listed longer ⟨before, ?_⟩
    rw [← List.append_assoc, ← List.append_assoc] at split
    rw [← byteLength_append, ← byteLength_append] at same
    exact (append_inj_of_byteLength_eq split same).1.symm

end

/-! ## The buffer of a phrase -/

/-- The scan that the next stop ends. -/
def atStop (g : Grammar m C) : Scan m C → List Char → Scan m C
  | s, [] => s
  | s, c :: rest =>
    match s.step g c rest with
    | .more s => atStop g s rest
    | .found _ => s

/-- How a text divides where a binary operator is found: what has gone into unary operators, the buffer
up to the operator, its token, and what is behind it. -/
theorem divides_of_first {g : Grammar m C} {s : Scan m C} {text : List Char} {entry : Entry m C}
    (stop : (s.first g text).1.stop = .binary entry) :
    ∃ ahead left behind,
      s.buffer.reverse ++ text = ahead ++ (left.reverse ++ (entry.token ++ behind)) ∧
        (s.atStop g text).start = s.start + byteLength ahead ∧
        (s.first g text).1.stopStart = (s.atStop g text).start + byteLength left.reverse ∧
        entry ∈ g.binary ∧ Ends g.spacing s.closed left behind entry := by
  induction text generalizing s with
  | nil => cases stop
  | cons c rest ih =>
    rw [first, step_eq_act] at stop ⊢
    rw [atStop, step_eq_act]
    cases acted : s.act c (mark g s.closed s.buffer c rest) with
    | more next =>
      rw [acted] at stop
      obtain ⟨ahead, left, behind, split, start, place, member, ends⟩ := ih stop
      obtain ⟨passed, same, next_start⟩ := start_of_more acted
      have closed := (step_more ((step_eq_act ..).trans acted)).1
      refine ⟨passed ++ ahead, left, behind, ?_, ?_, place, member, closed ▸ ends⟩
      · rw [same, split, List.append_assoc]
      · rw [byteLength_append, ← Nat.add_assoc, ← next_start]
        exact start
    | found p =>
      rw [acted] at stop
      obtain ⟨left, split, rfl, member, ends⟩ := phrase_of_binary acted stop
      refine ⟨[], left, rest, ?_, rfl, rfl, member, ends⟩
      rw [List.nil_append, ← List.append_assoc, ← split, List.append_assoc]
      rfl

end Scan

/-- Comparisons, one of which has the token of the other in its middle. -/
def Vocabulary.comparisons : Vocabulary Id Unit where
  binary := [pureBinary "<" Value.isBelow, pureBinary "=<>" Value.isUnequal]
  unary := [pureUnary "!" Value.negation]

namespace Grammar

/-- Where the buffer starts that the stop of the phrase at a position ends. -/
def bufferAt (g : Grammar m C) (text : String) (closed : Bool) (position : Nat) : Nat :=
  ((Scan.startingAt closed position).atStop g ((dropBytes? position text.toList).getD [])).start

/-- Of the tokens that start, or end, where a binary operator has been found, its own is the longest. So
a longer one that stands around it, not before the buffer, reaches beyond it on both sides. -/
theorem longest_around (v : Vocabulary m C) (spacing : Spacing) (text : String) (closed : Bool)
    (position : Nat) {p : Phrase m C}
    (read : (ofVocabulary v spacing).phraseAt text closed position = p) {entry : Entry m C}
    (stop : p.stop = .binary entry) :
    entry.op ∈ v.binary ∧ StandsAt text.toList entry.op.token.toList p.stopStart ∧
      ∀ op ∈ v.binary, byteLength entry.op.token.toList < byteLength op.token.toList →
        ∀ place, StandsAt text.toList op.token.toList place →
          (ofVocabulary v spacing).bufferAt text closed position ≤ place → place ≤ p.stopStart →
          p.stopStart + byteLength entry.op.token.toList ≤ place + byteLength op.token.toList →
            place < p.stopStart ∧
              p.stopStart + byteLength entry.op.token.toList < place + byteLength op.token.toList := by
  subst read
  obtain ⟨before, rest, split, length, dropped⟩ : ∃ before rest, text.toList = before ++ rest ∧
      byteLength before = position ∧ (dropBytes? position text.toList).getD [] = rest := by
    cases found : dropBytes? position text.toList with
    | none =>
      rw [phraseAt, found] at stop
      cases stop
    | some rest =>
      obtain ⟨before, split, length⟩ := eq_append_of_dropBytes? found
      exact ⟨before, rest, split, length, rfl⟩
  rw [phraseAt, dropped] at stop ⊢
  rw [bufferAt, dropped]
  obtain ⟨ahead, left, behind, divided, start, place, member, ends⟩ := Scan.divides_of_first stop
  have token := Entry.token_of_mem_table member
  have whole : text.toList = (before ++ ahead) ++ (left.reverse ++ (entry.token ++ behind)) := by
    rw [split, List.append_assoc, ← divided]
    rfl
  have opens : ((Scan.startingAt closed position).atStop (ofVocabulary v spacing) rest).start =
      byteLength (before ++ ahead) := by
    rw [start, byteLength_append, length]
    rfl
  rw [place, opens, ← token]
  refine ⟨Entry.op_mem_of_mem_table member, ⟨before ++ ahead ++ left.reverse, behind, ?_, ?_⟩, ?_⟩
  · rw [whole, List.append_assoc (before ++ ahead)]
  · rw [byteLength_append (before ++ ahead)]
  · rintro op listed longer _ ⟨first, last, stands, rfl⟩ notBefore starts stops
    obtain ⟨e, rfl, inner⟩ := exists_append_of_byteLength_le (whole.symm.trans stands) notBefore
    rw [byteLength_append (before ++ ahead) e] at starts stops ⊢
    have beyond := ends.reaches_beyond member listed longer inner (by omega) (by omega)
    omega

/-- The longer token starts behind the unary operator and a character of two bytes. -/
theorem longest_around_middle :
    ∃ (p : Phrase Id Unit) (entry : Entry Id Unit),
      (ofVocabulary .comparisons .wordsOnly).phraseAt "! é=<>b" false 0 = p ∧ p.stop = .binary entry ∧
        StandsAt "! é=<>b".toList ['<'] 5 ∧ 4 < p.stopStart ∧ p.stopStart + 1 < 4 + 3 := by
  obtain ⟨p, entry, read, stop, token, place⟩ : ∃ (p : Phrase Id Unit) (entry : Entry Id Unit),
      (ofVocabulary .comparisons .wordsOnly).phraseAt "! é=<>b" false 0 = p ∧ p.stop = .binary entry ∧
        entry.op.token = "<" ∧ p.stopStart = 5 := ⟨_, _, rfl, rfl, rfl, rfl⟩
  obtain ⟨_, stands, beyond⟩ := longest_around .comparisons .wordsOnly "! é=<>b" false 0 read stop
  rw [token, place] at stands beyond
  refine ⟨p, entry, read, stop, stands, ?_⟩
  rw [place]
  exact beyond _ (List.mem_cons_of_mem _ (List.mem_cons_self ..)) (by decide) 4
    ⟨"! é".toList, ['b'], rfl, rfl⟩ (by decide) (by decide) (by decide)

/-- A longer token that has another one in its middle is not found. -/
theorem middle_found_first :
    (Vocabulary.comparisons.binary.map fun op => op.token).Nodup ∧
      (∀ op ∈ Vocabulary.comparisons.binary, op.token ≠ "") ∧
      ∃ (p : Phrase Id Unit) (entry : Entry Id Unit),
        (ofVocabulary .comparisons .wordsOnly).phraseAt "a=<>b" false 0 = p ∧ p.stop = .binary entry ∧
          ¬∀ op ∈ Vocabulary.comparisons.binary,
            byteLength entry.op.token.toList < byteLength op.token.toList →
            ∀ place, StandsAt "a=<>b".toList op.token.toList place →
              (ofVocabulary .comparisons .wordsOnly).bufferAt "a=<>b" false 0 ≤ place →
              place ≤ p.stopStart →
                ¬p.stopStart + byteLength entry.op.token.toList ≤
                  place + byteLength op.token.toList := by
  refine ⟨by decide, by decide, _, _, rfl, rfl, fun none => ?_⟩
  exact none _ (List.mem_cons_of_mem _ (List.mem_cons_self ..)) (by decide) 1
    ⟨['a'], ['b'], rfl, rfl⟩ (by decide) (by decide) (by decide)

end Grammar

end Formula
