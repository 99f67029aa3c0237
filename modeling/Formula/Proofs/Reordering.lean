import Mathlib.Data.List.Forall2
import Formula.Proofs.Spaced
import Formula.Proofs.Spelling

/-!
# Reordered vocabularies

Where no token is listed twice, no more than one operator of a list can be recognized at a character. So
it does not matter which one is looked for first: a vocabulary with its lists in another order reads the
same phrases from every text, and only gives other priorities to their operators.
-/

namespace Formula

open List (Forall₂)

variable {m : Type → Type} {C : Type}

namespace Vocabulary

/-- No list contains a token twice. -/
structure Distinct (v : Vocabulary m C) : Prop where
  binary : (v.binary.map fun op => op.token.toList).Nodup
  unary : (v.unary.map fun op => op.token.toList).Nodup
  constants : (v.constants.map fun op => op.token.toList).Nodup

structure Reordered (v w : Vocabulary m C) : Prop where
  binary : v.binary.Perm w.binary
  unary : v.unary.Perm w.unary
  constants : v.constants.Perm w.constants

theorem Distinct.reordered {v w : Vocabulary m C} (distinct : v.Distinct) (reordered : v.Reordered w) :
    w.Distinct :=
  ⟨(reordered.binary.map _).nodup_iff.mp distinct.binary,
    (reordered.unary.map _).nodup_iff.mp distinct.unary,
    (reordered.constants.map _).nodup_iff.mp distinct.constants⟩

end Vocabulary

/-- Two entries of the same operator that differ in nothing but their places. -/
structure Entry.Alike (a b : Entry m C) : Prop where
  op : a.op = b.op
  token : a.token = b.token
  word : a.word = b.word
  longerEnding : ∀ longer, longer ∈ a.longerEnding ↔ longer ∈ b.longerEnding
  longerStarting : ∀ longer, longer ∈ a.longerStarting ↔ longer ∈ b.longerStarting

inductive Stop.Alike : Stop m C → Stop m C → Prop where
  | ending : Alike .ending .ending
  | opening : Alike .opening .opening
  | closing : Alike .closing .closing
  | constant {a b : Entry m C} (entry : a.Alike b) : Alike (.constant a) (.constant b)
  | binary {a b : Entry m C} (entry : a.Alike b) : Alike (.binary a) (.binary b)

theorem Stop.Alike.closes_eq {a b : Stop m C} (alike : a.Alike b) : a.closes = b.closes := by
  cases alike <;> rfl

structure Phrase.Alike (p q : Phrase m C) : Prop where
  unary : p.unary = q.unary
  operand : p.operand = q.operand
  operandStart : p.operandStart = q.operandStart
  stop : p.stop.Alike q.stop
  stopStart : p.stopStart = q.stopStart
  next : p.next = q.next

inductive Mark.Alike : Mark m C → Mark m C → Prop where
  | constant {a b : Entry m C} (entry : a.Alike b) : Alike (.constant a) (.constant b)
  | unary {a b : Entry m C} (entry : a.Alike b) : Alike (.unary a) (.unary b)
  | bracket (stop : Stop m C) (kind : stop = .opening ∨ stop = .closing) :
      Alike (.bracket stop) (.bracket stop)
  | binary {a b : Entry m C} (entry : a.Alike b) : Alike (.binary a) (.binary b)
  | nothing : Alike .nothing .nothing

inductive Scan.Outcome.Alike : Scan.Outcome m C → Scan.Outcome m C → Prop where
  | more (s : Scan m C) : Alike (.more s) (.more s)
  | found {p q : Phrase m C} (phrase : p.Alike q) : Alike (.found p) (.found q)

/-! ## Tables -/

namespace Entry

variable {ops others : List (Operator m C)} {entry other : Entry m C}

theorem exists_alike (reordered : ops.Perm others) (member : entry ∈ table ops) :
    ∃ other ∈ table others, entry.Alike other := by
  obtain ⟨op, place, found, rfl⟩ := mem_table.mp member
  obtain ⟨place', found'⟩ := List.getElem?_of_mem (reordered.subset (List.mem_of_getElem? found))
  refine ⟨_, mem_table.mpr ⟨op, place', found', rfl⟩, rfl, rfl, rfl, fun longer => ?_, fun longer => ?_⟩ <;>
    simp only [ofOperator, List.mem_filter, (reordered.map fun op => op.token.toList).mem_iff]

/-- If no more than one entry of a table passes a test, it is found in any order. -/
theorem find?_alike (reordered : ops.Perm others) {test : Entry m C → Bool}
    (same : ∀ a b, Alike a b → test a = test b)
    (only : ∀ a ∈ table others, ∀ b ∈ table others, test a → test b → b = a) :
    Option.Rel Alike ((table ops).find? test) ((table others).find? test) := by
  cases found : (table ops).find? test with
  | some a =>
    obtain ⟨b, member, alike⟩ := exists_alike reordered (List.mem_of_find?_eq_some found)
    have passes : test b := same a b alike ▸ List.find?_some found
    have found' := find?_eq_some_of_only member passes fun c listed => only b member c listed passes
    rw [found']
    exact .some alike
  | none =>
    have none' : (table others).find? test = none := by
      rw [List.find?_eq_none] at found ⊢
      intro b member passes
      obtain ⟨a, listed, alike⟩ := exists_alike reordered.symm member
      exact found a listed (same b a alike ▸ passes)
    rw [none']
    exact .none

end Entry

/-! ## Scanning -/

namespace Scan

section

variable {ops others : List (Operator m C)} {entry other : Entry m C} {spacing : Spacing}
  {closed : Bool} {reversed left rest : List Char}

theorem endsWith_alike (alike : entry.Alike other) :
    endsWith spacing closed reversed rest entry = endsWith spacing closed reversed rest other := by
  have ending : entry.longerEnding.any (·.reverse.isPrefixOf reversed) =
      other.longerEnding.any (·.reverse.isPrefixOf reversed) := by
    rw [Bool.eq_iff_iff, List.any_eq_true, List.any_eq_true]
    exact exists_congr fun longer => and_congr_left fun _ => alike.longerEnding longer
  have starting : entry.longerStarting.any (·.isPrefixOf (entry.token ++ rest)) =
      other.longerStarting.any (·.isPrefixOf (other.token ++ rest)) := by
    rw [Bool.eq_iff_iff, List.any_eq_true, List.any_eq_true, alike.token]
    exact exists_congr fun longer => and_congr_left fun _ => alike.longerStarting longer
  unfold endsWith
  rw [ending, starting, alike.token, alike.word]

/-- A longer token of the table does not end where a shorter one has been recognized. -/
theorem Ends.eq_of_longer (distinct : (ops.map fun op => op.token.toList).Nodup)
    (member : entry ∈ Entry.table ops) (listed : other ∈ Entry.table ops)
    (ends : Ends spacing closed left rest entry) {more before : List Char}
    (longer : other.token.reverse = entry.token.reverse ++ more) (split : left = more ++ before) :
    entry = other := by
  have token : other.token = more.reverse ++ entry.token := by
    rw [← List.reverse_inj, longer, List.reverse_append, List.reverse_reverse]
  cases more with
  | nil => exact Entry.eq_of_token_eq distinct member listed token.symm
  | cons first others =>
    have found := (Entry.mem_longerEnding member).mpr
      ⟨Entry.token_mem_of_mem_table listed, _, by simp, token⟩
    refine absurd ⟨before, ?_⟩ (ends.longerEnding _ found)
    rw [longer, split, List.append_assoc]

theorem eq_of_endsWith (distinct : (ops.map fun op => op.token.toList).Nodup)
    (member : entry ∈ Entry.table ops) (listed : other ∈ Entry.table ops)
    (ends : endsWith spacing closed reversed rest entry)
    (ends' : endsWith spacing closed reversed rest other) : entry = other := by
  obtain ⟨left, split, ends⟩ := endsWith_iff.mp ends
  obtain ⟨left', split', ends'⟩ := endsWith_iff.mp ends'
  rcases List.append_eq_append_iff.mp (split.symm.trans split') with ⟨more, longer, before⟩ |
    ⟨more, longer, before⟩
  · exact ends.eq_of_longer distinct member listed longer before
  · exact (ends'.eq_of_longer distinct listed member longer before).symm

theorem whole?_alike (reordered : ops.Perm others)
    (distinct : (others.map fun op => op.token.toList).Nodup) (spacing : Spacing)
    (text rest : List Char) :
    Option.Rel Entry.Alike (whole? spacing (Entry.table ops) text rest)
      (whole? spacing (Entry.table others) text rest) := by
  unfold whole?
  split
  · exact .none
  · refine Entry.find?_alike reordered (fun a b alike => by rw [alike.token, alike.word]) ?_
    intro a member b listed passes passes'
    simp only [Bool.and_eq_true, beq_iff_eq] at passes passes'
    exact Entry.eq_of_token_eq distinct listed member (passes'.1.trans passes.1.symm)

theorem find?_endsWith_alike (reordered : ops.Perm others)
    (distinct : (others.map fun op => op.token.toList).Nodup) (spacing : Spacing) (closed : Bool)
    (reversed rest : List Char) :
    Option.Rel Entry.Alike ((Entry.table ops).find? (endsWith spacing closed reversed rest))
      ((Entry.table others).find? (endsWith spacing closed reversed rest)) :=
  Entry.find?_alike reordered (fun _ _ alike => endsWith_alike alike)
    fun _ member _ listed passes passes' => eq_of_endsWith distinct listed member passes' passes

end

section

variable {v w : Vocabulary m C} (reordered : v.Reordered w) (distinct : v.Distinct) (spacing : Spacing)

include reordered distinct

theorem mark_alike (closed : Bool) (buffer : List Char) (c : Char) (rest : List Char) :
    (mark (.ofVocabulary v spacing) closed buffer c rest).Alike
      (mark (.ofVocabulary w spacing) closed buffer c rest) := by
  have distinct := distinct.reordered reordered
  unfold mark
  have constants := whole?_alike reordered.constants distinct.constants spacing
    (candidate closed (c :: buffer)) rest
  dsimp only [Grammar.ofVocabulary]
  generalize whole? _ (Entry.table v.constants) _ _ = constant at constants ⊢
  generalize whole? _ (Entry.table w.constants) _ _ = constant' at constants ⊢
  cases constants with
  | some entry => exact .constant entry
  | none =>
  have unary := whole?_alike reordered.unary distinct.unary spacing (candidate closed (c :: buffer)) rest
  generalize whole? _ (Entry.table v.unary) _ _ = unary at unary ⊢
  generalize whole? _ (Entry.table w.unary) _ _ = unary' at unary ⊢
  cases unary with
  | some entry => exact .unary entry
  | none =>
  cases bracket : (bracket? c : Option (Stop m C)).filter fun _ => !isOpenQuote (trim buffer.reverse) with
  | some stop =>
    have kind := eq_of_bracket? (Option.filter_eq_some_iff.mp bracket).1
    exact .bracket stop (kind.imp And.right And.right)
  | none =>
  have binary := find?_endsWith_alike reordered.binary distinct.binary spacing closed (c :: buffer) rest
  generalize (Entry.table v.binary).find? _ = binary at binary ⊢
  generalize (Entry.table w.binary).find? _ = binary' at binary ⊢
  cases binary with
  | some entry => exact .binary entry
  | none => exact .nothing

omit reordered distinct in
theorem act_alike (s : Scan m C) (c : Char) {a b : Mark m C} (alike : a.Alike b) :
    (s.act c a).Alike (s.act c b) := by
  cases alike with
  | constant entry => exact .found ⟨rfl, rfl, rfl, .constant entry, rfl, rfl⟩
  | unary entry =>
    rw [act, act, entry.op]
    exact .more _
  | bracket stop kind =>
    rcases kind with rfl | rfl
    · exact .found ⟨rfl, rfl, rfl, .opening, rfl, rfl⟩
    · exact .found ⟨rfl, rfl, rfl, .closing, rfl, rfl⟩
  | binary entry =>
    rw [act, act, entry.token]
    exact .found ⟨rfl, rfl, rfl, .binary entry, rfl, rfl⟩
  | nothing => exact .more _

theorem step_alike (s : Scan m C) (c : Char) (rest : List Char) :
    (s.step (.ofVocabulary v spacing) c rest).Alike (s.step (.ofVocabulary w spacing) c rest) := by
  rw [step_eq_act, step_eq_act]
  exact act_alike s c (mark_alike reordered distinct spacing ..)

theorem first_alike (text : List Char) (s : Scan m C) :
    (s.first (.ofVocabulary v spacing) text).1.Alike (s.first (.ofVocabulary w spacing) text).1 := by
  induction text generalizing s with
  | nil => exact ⟨rfl, rfl, rfl, .ending, rfl, rfl⟩
  | cons c rest ih =>
    have outcome := step_alike reordered distinct spacing s c rest
    rw [first, first]
    generalize s.step (.ofVocabulary v spacing) c rest = a at outcome ⊢
    generalize s.step (.ofVocabulary w spacing) c rest = b at outcome ⊢
    cases outcome with
    | more next => exact ih next
    | found phrase => exact phrase

theorem phrases_alike (text : List Char) (s : Scan m C) :
    Forall₂ Phrase.Alike (s.phrases (.ofVocabulary v spacing) text)
      (s.phrases (.ofVocabulary w spacing) text) := by
  induction text generalizing s with
  | nil => exact .cons ⟨rfl, rfl, rfl, .ending, rfl, rfl⟩ .nil
  | cons c rest ih =>
    have outcome := step_alike reordered distinct spacing s c rest
    rw [phrases, phrases]
    generalize s.step (.ofVocabulary v spacing) c rest = a at outcome ⊢
    generalize s.step (.ofVocabulary w spacing) c rest = b at outcome ⊢
    cases outcome with
    | more next => exact ih next
    | @found p q phrase =>
      have same : after p = after q := by
        rw [after_eq, after_eq, phrase.next, phrase.stop.closes_eq]
      refine .cons phrase ?_
      rw [same]
      exact ih (after q)

end

end Scan

namespace Grammar

/-- Where no list contains a token twice, the order of the lists does not matter to what is read: at any
position the same unary operators, the same operand and the same stop in the same places, and so the
same row of phrases from any offset. -/
theorem reads_reordered {v w : Vocabulary m C} (reordered : v.Reordered w) (distinct : v.Distinct)
    (spacing : Spacing) (text : String) :
    (∀ closed position, ((ofVocabulary v spacing).phraseAt text closed position).Alike
      ((ofVocabulary w spacing).phraseAt text closed position)) ∧
    ∀ offset, Forall₂ Phrase.Alike
      ((Scan.startingAt false offset).phrases (ofVocabulary v spacing)
        ((dropBytes? offset text.toList).getD []))
      ((Scan.startingAt false offset).phrases (ofVocabulary w spacing)
        ((dropBytes? offset text.toList).getD [])) :=
  ⟨fun closed position => Scan.first_alike reordered distinct spacing _ (.startingAt closed position),
    fun offset => Scan.phrases_alike reordered distinct spacing _ (.startingAt false offset)⟩

/-- The lists of the built-in operators the other way round. The operator that is found has another
priority. -/
theorem reads_reordered_reversed :
    ∃ v w : Vocabulary Id Unit, v = .builtin ⟨fun _ _ => .absent⟩ ∧
      w = ⟨v.binary.reverse, v.unary.reverse, v.constants.reverse⟩ ∧
      ∃ entry entry',
        ((ofVocabulary v .wordsOnly).phraseAt "! - é<=true" false 0).stop = .binary entry ∧
        ((ofVocabulary w .wordsOnly).phraseAt "! - é<=true" false 0).stop = .binary entry' ∧
        entry.priority = 14 ∧ entry'.priority = 4 ∧
        ((ofVocabulary v .wordsOnly).phraseAt "! - é<=true" false 0).Alike
          ((ofVocabulary w .wordsOnly).phraseAt "! - é<=true" false 0) := by
  refine ⟨_, _, rfl, rfl, _, _, rfl, rfl, rfl, rfl, ?_⟩
  have distinct : (Vocabulary.builtin ⟨fun _ _ => .absent⟩ : Vocabulary Id Unit).Distinct :=
    ⟨by decide, by decide, by decide⟩
  have reversed := fun ops : List (Operator Id Unit) => (List.reverse_perm ops).symm
  exact (reads_reordered ⟨reversed _, reversed _, reversed _⟩ distinct .wordsOnly _).1 false 0

end Grammar

end Formula
