import Formula.Proofs.Shapes
import Formula.Proofs.Slicing

/-!
# Termination

A text is compiled by reading phrases, each from where the one before has left off, until its tree is
complete or refused. A phrase that does not end the text takes a part of it, so this comes to an end from
any offset, whatever the tokens are.
-/

namespace Formula

variable {m : Type → Type} {σ C : Type}

/-! ## Progress -/

theorem dropBytes?_eq_none {text : List Char} {offset : Nat}
    (apart : ∀ before, before <+: text → byteLength before ≠ offset) : dropBytes? offset text = none := by
  cases dropped : dropBytes? offset text with
  | none => rfl
  | some rest =>
    obtain ⟨before, split, place⟩ := eq_append_of_dropBytes? dropped
    exact absurd place (apart before ⟨rest, split.symm⟩)

section

variable (v : Vocabulary m C) (spacing : Spacing) (closed : Bool)

/-- A phrase takes a part of the text, which is not empty if more is to follow. -/
theorem Scan.first_takes (before rest : List Char) :
    ∃ p taken behind,
      (startingAt closed (byteLength before)).first (.ofVocabulary v spacing) rest = (p, behind) ∧
        rest = taken ++ behind ∧ p.next = byteLength (before ++ taken) ∧ (p.stop ≠ .ending → taken ≠ []) := by
  obtain ⟨taken, divided, covers⟩ :=
    (passed_startingAt (.ofVocabulary v spacing) closed (byteLength before) rest).first
  refine ⟨_, taken, _, rfl, divided, covers.next.trans (byteLength_append ..).symm, ?_⟩
  rintro other rfl
  rcases phrases_eq_first (.ofVocabulary v spacing) (startingAt closed (byteLength before)) rest with
    ⟨ending, _⟩ | ⟨_, shorter, _⟩
  · exact other ending
  · exact absurd (congrArg List.length divided) shorter.ne'

/-- Reading finds no fault, and goes on unless it comes to the end. -/
theorem Grammar.readAt_progress (text : List Char) (position : Nat) :
    ∃ p, (ofVocabulary v spacing).readAt text closed position = .ok p ∧
      (position ≤ byteLength text → p.stop ≠ .ending → position < p.next ∧ p.next ≤ byteLength text) := by
  cases dropped : dropBytes? position text with
  | none => exact ⟨_, readAt_of_none _ dropped closed, fun _ other => absurd rfl other⟩
  | some rest =>
    obtain ⟨before, rfl, rfl⟩ := eq_append_of_dropBytes? dropped
    obtain ⟨p, taken, behind, first, rfl, next, some⟩ := Scan.first_takes v spacing closed before rest
    have read := readAt_append (.ofVocabulary v spacing) before (taken ++ behind) closed
    rw [first] at read
    refine ⟨p, read, fun _ other => ?_⟩
    have taken_pos := byteLength_pos (some other)
    simp only [next, byteLength_append]
    omega

end

/-! ## Runs -/

namespace Draft

variable [Monad m] {g : Grammar m C} {inside : Bool} {d : Draft m C} {p : Phrase m C}

/-- A finite execution: from a position on phrases are read and added, until the root is complete or a
phrase is refused. -/
inductive Runs (g : Grammar m C) (text : List Char) (inside : Bool) :
    Draft m C → Nat → Except CompileError (Slot m C) → Prop where
  | refused {d : Draft m C} {position : Nat} {p : Phrase m C} {e : CompileError}
      (read : g.readAt text d.closed position = .ok p) (step : d.step inside p = .error e) :
      Runs g text inside d position (.error e)
  | done {d : Draft m C} {position : Nat} {p : Phrase m C} {root : Slot m C}
      (read : g.readAt text d.closed position = .ok p) (step : d.step inside p = .ok (.done root)) :
      Runs g text inside d position (.ok root)
  | next {d after : Draft m C} {position : Nat} {p : Phrase m C} {result : Except CompileError (Slot m C)}
      (read : g.readAt text d.closed position = .ok p) (step : d.step inside p = .ok (.next after))
      (later : Runs g text inside after p.next result) : Runs g text inside d position result

theorem Runs.of_read {text : List Char} {position : Nat} {result : Except CompileError (Slot m C)}
    (runs : Runs g text inside d position result) (read : g.readAt text d.closed position = .ok p) :
    match d.step inside p with
    | .ok (.next after) => Runs g text inside after p.next result
    | .ok (.done root) => result = .ok root
    | .error e => result = .error e := by
  cases runs with
  | refused read' step | done read' step =>
    cases read.symm.trans read'
    rw [step]
  | next read' step later =>
    cases read.symm.trans read'
    rw [step]
    exact later

theorem Runs.unique {text : List Char} {position : Nat} {result other : Except CompileError (Slot m C)}
    (runs : Runs g text inside d position result) (runs' : Runs g text inside d position other) :
    result = other := by
  induction runs with
  | refused read step | done read step =>
    have ended := runs'.of_read read
    rw [step] at ended
    exact ended.symm
  | next read step _ ih =>
    have later := runs'.of_read read
    rw [step] at later
    exact ih later

/-- Behind the end of the text there is nothing to go on with. -/
theorem ne_ending_of_step {after : Draft m C} (step : d.step inside p = .ok (.next after)) :
    p.stop ≠ .ending := by
  intro ending
  unfold Draft.step place at step
  rw [ending] at step
  split at step
  · cases step
  split at step
  · cases step
  dsimp only at step
  unfold conclude at step
  split at step <;> cases step

/-- The induction is on the text. -/
theorem run_eq_first (g : Grammar m C) (inside : Bool) (d : Draft m C) (s : Scan m C) (text : List Char) :
    d.run g inside s text =
      match d.step inside (s.first g text).1 with
      | .ok (.next after) =>
        after.run g inside (.startingAt after.closed (s.first g text).1.next) (s.first g text).2
      | .ok (.done root) => .ok root
      | .error e => .error e := by
  induction text generalizing s with
  | nil =>
    rw [run, Scan.first]
    dsimp only
    cases stepped : d.step inside s.finish with
    | error e => rfl
    | ok outcome =>
      cases outcome with
      | next after => exact absurd rfl (ne_ending_of_step stepped)
      | done root => rfl
  | cons c rest ih =>
    rw [run, Scan.first]
    cases s.step g c rest with
    | more next => exact ih next
    | found p => rfl

/-- From a place between two characters on, the phrases are those of a scan. The induction is on how much
of the text is left, which is less behind any phrase but the last. -/
theorem runs_append (v : Vocabulary m C) (spacing : Spacing) (inside : Bool) (d : Draft m C)
    (before rest : List Char) :
    d.Runs (.ofVocabulary v spacing) (before ++ rest) inside (byteLength before)
      (d.run (.ofVocabulary v spacing) inside (.startingAt d.closed (byteLength before)) rest) := by
  induction size : rest.length using Nat.strong_induction_on generalizing d before rest with
  | _ n ih =>
  obtain ⟨p, taken, behind, first, rfl, place, some⟩ := Scan.first_takes v spacing d.closed before rest
  have read := Grammar.readAt_append (.ofVocabulary v spacing) before (taken ++ behind) d.closed
  rw [run_eq_first, first]
  rw [first] at read
  dsimp only
  cases stepped : d.step inside p with
  | error e => exact .refused read stepped
  | ok outcome =>
    cases outcome with
    | done root => exact .done read stepped
    | next after =>
      have taken_pos := List.length_pos_iff.mpr (some (ne_ending_of_step stepped))
      have shorter : behind.length < n := by
        rw [← size, List.length_append]
        omega
      refine .next read stepped ?_
      rw [place, ← List.append_assoc]
      exact ih behind.length shorter after (before ++ taken) behind rfl

end Draft

namespace Grammar

/-- What is put together from an offset on comes from a finite execution. -/
theorem runs_assemble [Monad m] (v : Vocabulary m C) (spacing : Spacing) (text : String) (offset : Nat) :
    Draft.empty.Runs (ofVocabulary v spacing) text.toList (decide (0 < offset)) offset
      ((ofVocabulary v spacing).assemble text offset) := by
  rw [assemble]
  cases dropped : dropBytes? offset text.toList with
  | none => exact .done (readAt_of_none _ dropped false) rfl
  | some rest =>
    obtain ⟨before, split, rfl⟩ := eq_append_of_dropBytes? dropped
    rw [split]
    exact Draft.runs_append v spacing _ .empty before rest

theorem assemble_eq_error [Monad m] {g : Grammar m C} {text : String} {offset : Nat} {e : CompileError} :
    g.assemble text offset = .error e ↔ g.parse text offset = .error e := by
  rw [assemble_eq]
  cases g.parse text offset with
  | error e' => constructor <;> rintro ⟨⟩ <;> rfl
  | ok t => constructor <;> rintro ⟨⟩

/-- Inside a character and past the end there is no text, which stands for an empty leaf. -/
theorem parse_of_none {g : Grammar m C} {text : String} {offset : Nat}
    (none : dropBytes? offset text.toList = none) : g.parse text offset = .ok (.leaf (.string "")) := by
  rw [parse, none]
  rfl

/-- Whatever the tokens are, no piece of a text is cut out between the wrong positions, from any position
on, and each phrase that does not end the text ends behind where it starts. So compiling comes to an end,
with just one result, from any offset: that is what any compiler gives. From an offset that is not a place
between characters it gives an empty leaf. -/
theorem compiling_ends (v : Vocabulary (StateM σ) C) (spacing : Spacing) (text : String) :
    (∀ closed position, ∃ p, (ofVocabulary v spacing).readAt text.toList closed position = .ok p ∧
      (position ≤ byteLength text.toList → p.stop ≠ .ending →
        position < p.next ∧ p.next ≤ byteLength text.toList)) ∧
    (∀ offset, ∃! result,
      Draft.empty.Runs (ofVocabulary v spacing) text.toList (decide (0 < offset)) offset result) ∧
    ∀ c, Compiler.Reached (.ofVocabulary v spacing) c → ∀ offset fresh s,
      (∀ e, c.result text offset fresh s = .error e ↔
        Draft.empty.Runs (ofVocabulary v spacing) text.toList (decide (0 < offset)) offset (.error e)) ∧
      (∀ t, c.result text offset fresh s = .ok t → ∃ root s',
        Draft.empty.Runs (ofVocabulary v spacing) text.toList (decide (0 < offset)) offset (.ok root) ∧
          t.toSlot = (Id.run (root.collapse.run s')).1) ∧
      ((∀ before, before <+: text.toList → byteLength before ≠ offset) →
        c.result text offset fresh s = .ok (.leaf (.string ""))) := by
  have runs := runs_assemble v spacing text
  refine ⟨fun closed => readAt_progress v spacing closed text.toList, fun offset => ?_, ?_⟩
  · exact ⟨_, runs offset, fun result runs' => runs'.unique (runs offset)⟩
  intro c reached offset fresh s
  refine ⟨fun e => ?_, fun t given => ?_, fun apart => ?_⟩
  · rw [reached.result_eq_error, ← assemble_eq_error]
    exact ⟨fun same => same ▸ runs offset, fun refused => (runs offset).unique refused⟩
  · obtain ⟨parsed, s', parses, rfl⟩ := reached.folds_of_result given
    have assembled : (ofVocabulary v spacing).assemble text offset = .ok parsed.toSlot := by
      rw [assemble_eq, parses]
      rfl
    refine ⟨parsed.toSlot, s', assembled ▸ runs offset, ?_⟩
    rw [run_collapse_toSlot]
  · have parses := parse_of_none (g := ofVocabulary v spacing) (dropBytes?_eq_none apart)
    cases given : c.result text offset fresh s with
    | error e =>
      rw [reached.result_eq_error, parses] at given
      cases given
    | ok t =>
      obtain ⟨parsed, s', parses', rfl⟩ := reached.folds_of_result given
      cases parses.symm.trans parses'
      rfl

/-- The offset 1 is inside the first character. -/
theorem compiling_ends_within :
    (∃ p, (ofVocabulary .counter .wordsOnly).readAt "é + (next".toList false 0 = .ok p ∧
      p.stop ≠ .ending ∧ 0 < p.next ∧ p.next ≤ 10) ∧
    Draft.empty.Runs (ofVocabulary .counter .wordsOnly) "é + (next".toList false 0
      (.error (.unclosedBracket 5)) ∧
    (∃ t root s', (Compiler.ofVocabulary .counter .wordsOnly).result "é + (next" 6 false 7 = .ok t ∧
      Draft.empty.Runs (ofVocabulary .counter .wordsOnly) "é + (next".toList true 6 (.ok root) ∧
        t.toSlot = (Id.run (root.collapse.run s')).1) ∧
    (Compiler.ofVocabulary .counter .wordsOnly).result "é + (next" 1 false 7 = .ok (.leaf (.string "")) := by
  obtain ⟨reads, _, gives⟩ := compiling_ends .counter .wordsOnly "é + (next"
  have start := gives _ .start
  have read : ∃ p, (ofVocabulary .counter .wordsOnly).readAt "é + (next".toList false 0 = .ok p ∧
      p.stop ≠ .ending := ⟨_, rfl, nofun⟩
  have compiled : ∃ t, (Compiler.ofVocabulary .counter .wordsOnly).result "é + (next" 6 false 7 = .ok t :=
    ⟨_, rfl⟩
  have apart : ∀ before, before <+: "é + (next".toList → byteLength before ≠ 1 := by
    have text : "é + (next".toList = 'é' :: " + (next".toList := rfl
    rw [text]
    rintro (_ | ⟨c, before⟩) first
    · exact Nat.zero_ne_one
    · obtain ⟨rfl, _⟩ := List.cons_prefix_cons.mp first
      have size : ('é').utf8Size = 2 := rfl
      rw [byteLength, size]
      omega
  refine ⟨?_, ((start 0 false 7).1 _).mp rfl, ?_, (start 1 false 7).2.2 apart⟩
  · obtain ⟨p, reading, other⟩ := read
    obtain ⟨p', reading', ahead⟩ := reads false 0
    cases reading.symm.trans reading'
    exact ⟨p, reading, other, ahead (Nat.zero_le _) other⟩
  · obtain ⟨t, given⟩ := compiled
    obtain ⟨root, s', runs, same⟩ := (start 6 false 7).2.1 t given
    exact ⟨t, root, s', given, runs, same⟩

end Grammar

end Formula
