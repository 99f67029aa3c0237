import Formula.Proofs.Reading

/-!
# Refusing

Why a phrase is an error. From the inside of a group a text is read in the same way as a whole one; only
a closing bracket without a group is an end there and an error elsewhere.
-/

namespace Formula

variable {m : Type → Type} {C : Type}

namespace Assembly

/-- Why a phrase is an error. -/
inductive Refuses (inside : Bool) (a : Assembly m C) (p : Phrase m C) : CompileError → Prop where
  | operand (misplaced : a.building.closed ∨ p.stop = .opening) (some : p.operand ≠ []) :
      Refuses inside a p (.danglingOperand (String.ofList p.operand) p.operandStart)
  | opening (closed : a.building.closed) (stop : p.stop = .opening) :
      Refuses inside a p (.danglingOperand (String.ofList ['(']) p.stopStart)
  | constant (closed : a.building.closed) (entry : Entry m C) (stop : p.stop = .constant entry) :
      Refuses inside a p (.danglingOperand (String.ofList entry.token) p.stopStart)
  | unmatched (groups : a.groups = []) (outside : inside = false) (stop : p.stop = .closing)
      (bare : a.building.closed → p.operand = []) :
      Refuses inside a p (.unexpectedCloseBracket p.stopStart)
  | unclosed (group : OpenGroup m C) (outer : List (OpenGroup m C)) (groups : a.groups = group :: outer)
      (stop : p.stop = .ending) (bare : a.building.closed → p.operand = []) :
      Refuses inside a p (.unclosedBracket group.position)

section

variable {inside : Bool} {a : Assembly m C} {p : Phrase m C} {tree : Tree m C} {e : CompileError}

theorem refuses_of_close (stop : p.stop = .closing) (bare : a.building.closed → p.operand = [])
    (refused : close inside a.groups tree p.stopStart = .error e) : Refuses inside a p e := by
  unfold close at refused
  split at refused
  · cases refused
  · next groups =>
    split at refused
    · cases refused
    · next outside =>
      cases refused
      exact .unmatched groups (Bool.not_eq_true inside ▸ outside) stop bare

theorem refuses_of_finish (stop : p.stop = .ending) (bare : a.building.closed → p.operand = [])
    (refused : Outcome.done <$> finish a.groups tree = .error e) : Refuses inside a p e := by
  unfold finish at refused
  split at refused
  · next group outer groups =>
    cases refused
    exact .unclosed group outer groups stop bare
  · cases refused

theorem refuses_of_step (refused : a.step inside p = .error e) : Refuses inside a p e := by
  unfold step at refused
  split at refused
  · next spine building =>
    have bare : a.building.closed → p.operand = [] := by simp [building, Building.closed]
    split at refused
    · next stop =>
      split at refused
      · cases refused
      · next some =>
        cases refused
        exact .operand (Or.inr stop) some
    · cases refused
    · cases refused
    · next stop => exact refuses_of_close stop bare refused
    · next stop => exact refuses_of_finish stop bare refused
  · next tree building =>
    have closed : a.building.closed := by rw [building]; rfl
    split at refused
    · next empty =>
      have bare : a.building.closed → p.operand = [] := fun _ => empty
      split at refused
      · next stop =>
        cases refused
        exact .opening closed stop
      · next entry stop =>
        cases refused
        exact .constant closed entry stop
      · cases refused
      · next stop => exact refuses_of_close stop bare refused
      · next stop => exact refuses_of_finish stop bare refused
    · next some =>
      cases refused
      exact .operand (Or.inl closed) some

end

/-- From the inside of a group a phrase has no other effect, but that a bracket without a group is
the end. -/
theorem step_inside (a : Assembly m C) (p : Phrase m C) :
    a.step true p = a.step false p ∨
      ∃ t, a.step true p = .ok (.done t) ∧ a.step false p = .error (.unexpectedCloseBracket p.stopStart) := by
  have bracket : ∀ tree : Tree m C, close true a.groups tree p.stopStart = close false a.groups tree p.stopStart ∨
      ∃ t, close true a.groups tree p.stopStart = .ok (.done t) ∧
        close false a.groups tree p.stopStart = .error (.unexpectedCloseBracket p.stopStart) := by
    intro tree
    cases groups : a.groups with
    | nil => exact Or.inr ⟨tree, rfl, rfl⟩
    | cons => exact Or.inl rfl
  unfold step
  split
  · next spine _ =>
    split
    · exact Or.inl rfl
    · exact Or.inl rfl
    · exact Or.inl rfl
    · exact bracket (operandTree spine p)
    · exact Or.inl rfl
  · next tree _ =>
    split
    · split
      · exact Or.inl rfl
      · exact Or.inl rfl
      · exact Or.inl rfl
      · exact bracket tree
      · exact Or.inl rfl
    · exact Or.inl rfl

theorem run_inside (a : Assembly m C) (ps : List (Phrase m C)) :
    a.run true ps = a.run false ps ∨
      ∃ t position, a.run true ps = .ok t ∧ a.run false ps = .error (.unexpectedCloseBracket position) := by
  induction ps generalizing a with
  | nil => exact Or.inl rfl
  | cons p rest ih =>
    rw [run, run]
    rcases step_inside a p with same | ⟨t, ends, refused⟩
    · rw [same]
      split
      · exact ih _
      · exact Or.inl rfl
      · exact Or.inl rfl
    · rw [ends, refused]
      exact Or.inr ⟨t, p.stopStart, rfl, rfl⟩

end Assembly

namespace Scan

variable {g : Grammar m C} {inside : Bool} {a : Assembly m C} {s next : Scan m C} {c : Char}
  {rest : List Char} {p : Phrase m C} {e : CompileError}

/-- How a character is read in a text with an error. -/
theorem of_read_cons_error (refused : g.read inside a s (c :: rest) = .error e) :
    (∃ next, s.act c (mark g s.closed s.buffer c rest) = .more next ∧
        g.read inside a next rest = .error e) ∨
      ∃ p, s.act c (mark g s.closed s.buffer c rest) = .found p ∧
        (Assembly.Refuses inside a p e ∨
          ∃ b, Assembly.Takes inside a p (.next b) ∧ g.read inside b (after p) rest = .error e) := by
  cases acted : s.act c (mark g s.closed s.buffer c rest) with
  | more next =>
    rw [read_more acted] at refused
    exact Or.inl ⟨next, rfl, refused⟩
  | found p =>
    rw [Grammar.read, phrases, step_eq_act, acted, Assembly.run] at refused
    refine Or.inr ⟨p, rfl, ?_⟩
    split at refused
    · next b taken => exact Or.inr ⟨b, Assembly.takes_of_step taken, refused⟩
    · cases refused
    · next e' taken =>
      cases refused
      exact Or.inl (Assembly.refuses_of_step taken)

/-- How the end of a text with an error is read. -/
theorem of_read_nil_error (refused : g.read inside a s [] = .error e) :
    Assembly.Refuses inside a s.finish e := by
  rw [Grammar.read, phrases, Assembly.run] at refused
  split at refused
  · next b taken =>
    have takes := Assembly.takes_of_step taken
    generalize finished : s.finish = p at takes
    have stop : p.stop = .ending := by rw [← finished]; rfl
    cases takes with
    | opening _ _ other | constant _ _ _ other | binary _ other | closing _ _ _ other =>
      rw [stop] at other
      cases other
  · cases refused
  · next e' taken =>
    cases refused
    exact Assembly.refuses_of_step taken

end Scan

end Formula
