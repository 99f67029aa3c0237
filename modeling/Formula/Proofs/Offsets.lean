import Formula.Proofs.Faults

/-!
# Offsets

A text that is compiled from an offset is compiled as the rest of it alone, as from the inside of a
group: positions count from the start of the whole, and a bracket without a group is the end.
-/

namespace Formula

variable {m : Type → Type} {σ C : Type}

theorem byteLength_pos {text : List Char} (some : text ≠ []) : 0 < byteLength text := by
  cases text with
  | nil => exact absurd rfl some
  | cons c rest =>
    have size := c.utf8Size_pos
    rw [byteLength]
    omega

namespace Grammar

variable {g : Grammar m C} {text : String} {before rest : List Char}

theorem parse_append (split : text.toList = before ++ rest) (some : before ≠ []) :
    g.parse text (byteLength before) =
      g.read true .empty (.startingAt false (byteLength before)) rest := by
  rw [parse, split, dropBytes?_append, decide_eq_true (byteLength_pos some)]
  rfl

theorem parse_append_eq_shift (split : text.toList = before ++ rest) (some : before ≠ []) :
    g.parse text (byteLength before) =
      (g.read true .empty (.startingAt false 0) rest).mapError (·.shift (byteLength before)) :=
  (parse_append split some).trans (read_startingAt ..)

variable {a : Assembly m C} {s : Scan m C}

theorem read_inside_of_ok {t : Tree m C} (whole : g.read false a s rest = .ok t) :
    g.read true a s rest = .ok t := by
  rcases Assembly.run_inside a (s.phrases g rest) with same | ⟨_, _, _, refused⟩
  · exact same.trans whole
  · cases whole.symm.trans refused

theorem read_inside_of_error {e : CompileError} (refused : g.read false a s rest = .error e)
    (other : ∀ position, e ≠ .unexpectedCloseBracket position) : g.read true a s rest = .error e := by
  rcases Assembly.run_inside a (s.phrases g rest) with same | ⟨_, position, _, bracket⟩
  · exact same.trans refused
  · exact absurd (Except.error.inj (refused.symm.trans bracket)) (other position)

end Grammar

namespace Compiler

variable {v : Vocabulary (StateM σ) C} {spacing : Spacing} {c : Compiler (StateM σ) C}
  {text : String} {before rest : List Char} {s s' : σ}

theorem answerFrom_ofList (text : List Char) (fresh : Bool) (s : σ) :
    (ofVocabulary v spacing).answerFrom (String.ofList text) 0 fresh s =
      foldFrom s ((Grammar.ofVocabulary v spacing).read false .empty (.startingAt false 0) text) := by
  rw [ofVocabulary, answerFrom_ofGrammar, Grammar.parse_zero, String.toList_ofList]

theorem answerFrom_append (grammar : c.grammar = .ofVocabulary v spacing)
    (split : text.toList = before ++ rest) (some : before ≠ []) (fresh : Bool) (s : σ) :
    c.answerFrom text (byteLength before) fresh s =
      foldFrom s (((Grammar.ofVocabulary v spacing).read true .empty (.startingAt false 0) rest).mapError
        (·.shift (byteLength before))) := by
  rw [answerFrom_of_positive c text (byteLength_pos some), grammar, Grammar.parse_append_eq_shift split some]

theorem answerFrom_of_ok (grammar : c.grammar = .ofVocabulary v spacing)
    (split : text.toList = before ++ rest) (some : before ≠ []) (fresh : Bool) {t : Tree (StateM σ) C}
    (alone : (ofVocabulary v spacing).answerFrom (String.ofList rest) 0 false s = (.ok t, s')) :
    c.answerFrom text (byteLength before) fresh s = (.ok t, s') := by
  rw [answerFrom_ofList] at alone
  obtain ⟨parsed, parses, folds⟩ := foldFrom_eq_ok.mp alone
  rw [answerFrom_append grammar split some, Grammar.read_inside_of_ok parses]
  exact foldFrom_eq_ok.mpr ⟨parsed, rfl, folds⟩

theorem answerFrom_of_error (grammar : c.grammar = .ofVocabulary v spacing)
    (split : text.toList = before ++ rest) (some : before ≠ []) (fresh : Bool) {e : CompileError}
    (alone : (ofVocabulary v spacing).answerFrom (String.ofList rest) 0 false s = (.error e, s'))
    (other : ∀ position, e ≠ .unexpectedCloseBracket position) :
    c.answerFrom text (byteLength before) fresh s = (.error (e.shift (byteLength before)), s') := by
  rw [answerFrom_ofList] at alone
  obtain ⟨refused, same⟩ := foldFrom_eq_error.mp alone
  rw [answerFrom_append grammar split some, Grammar.read_inside_of_error refused other]
  exact foldFrom_eq_error.mpr ⟨rfl, same⟩

/-- A bracket without a group ends the text. -/
theorem answerFrom_of_unmatched (grammar : c.grammar = .ofVocabulary v spacing)
    (split : text.toList = before ++ rest) (some : before ≠ []) (fresh : Bool) (closing : v.Avoids ')')
    {position : Nat}
    (alone : (ofVocabulary v spacing).answerFrom (String.ofList rest) 0 false s =
      (.error (.unexpectedCloseBracket position), s')) :
    ∃ inner behind t left, rest = inner ++ ')' :: behind ∧ byteLength inner = position ∧
      (ofVocabulary v spacing).answerFrom (String.ofList inner) 0 false s = (.ok t, left) ∧
        c.answerFrom text (byteLength before) fresh s = (.ok t, left) := by
  rw [answerFrom_ofList] at alone
  obtain ⟨refused, _⟩ := foldFrom_eq_error.mp alone
  obtain ⟨inner, behind, t, bracket, place, whole, within⟩ :=
    Scan.read_unmatched (Grammar.ofVocabulary_avoids closing spacing) refused
  obtain ⟨folded, left, folds⟩ : ∃ folded left, Id.run (t.fold.run s) = (folded, left) := ⟨_, _, rfl⟩
  refine ⟨inner, behind, folded, left, bracket, (place.trans (Nat.zero_add _)).symm, ?_, ?_⟩
  · rw [answerFrom_ofList]
    exact foldFrom_eq_ok.mpr ⟨t, whole, folds⟩
  · rw [answerFrom_append grammar split some, within]
    exact foldFrom_eq_ok.mpr ⟨t, rfl, folds⟩

end Compiler

end Formula
