import Formula.Proofs.Folding

/-!
# Remembering

What compiling a text does to a compiler. The answers to other texts, and to the text itself, stay what
they were.
-/

namespace Formula

variable {C : Type}

namespace Store

variable {α : Type} {store : Store α} {key other : String}

theorem keep_of_get?_eq_none (missing : store.get? key = none) (value : α) :
    store.keep key value = (⟨(key, value) :: store.entries⟩, value) := by
  rw [keep, missing]

theorem get?_cons_self (entries : List (String × α)) (key : String) (value : α) :
    (⟨(key, value) :: entries⟩ : Store α).get? key = some value := by
  rw [get?, List.lookup_cons_self]

theorem get?_cons_of_ne (different : other ≠ key) (entries : List (String × α)) (value : α) :
    (⟨(key, value) :: entries⟩ : Store α).get? other = (⟨entries⟩ : Store α).get? other := by
  have unequal : (other == key) = false := beq_eq_false_iff_ne.mpr different
  rw [get?, get?, List.lookup_cons, unequal]

end Store

namespace Compiler

variable {c : Compiler Id C} {text other : String}

theorem compile_of_kept {tree : Shared (Tree Id C)} (kept : c.trees.get? text = some tree) :
    Id.run (c.compile text) = (.ok tree, c) := by
  simp only [compile, compileFrom, beq_self_eq_true, Bool.not_false, Bool.and_true, if_true, kept]
  rfl

theorem compile_of_error {e : CompileError} (missing : c.trees.get? text = none)
    (parsed : c.grammar.parse text 0 = .error e) : Id.run (c.compile text) = (.error e, c) := by
  simp only [compile, compileFrom, beq_self_eq_true, Bool.not_false, Bool.and_true, if_true, missing,
    parsed]
  rfl

theorem compile_of_ok {t : Tree Id C} (missing : c.trees.get? text = none)
    (parsed : c.grammar.parse text 0 = .ok t) :
    Id.run (c.compile text) =
      (.ok ⟨c.made, Id.run t.fold⟩,
        { c with
          trees := ⟨(text, ⟨c.made, Id.run t.fold⟩) :: c.trees.entries⟩
          made := c.made + 1 }) := by
  have kept : Id.run (c.compile text) =
      (.ok (c.trees.keep text ⟨c.made, Id.run t.fold⟩).2,
        { c with
          trees := (c.trees.keep text ⟨c.made, Id.run t.fold⟩).1
          made := c.made + 1 }) := by
    simp only [compile, compileFrom, beq_self_eq_true, Bool.not_false, Bool.and_true, if_true, missing,
      parsed]
    rfl
  rw [kept, Store.keep_of_get?_eq_none missing]

theorem answer_of_kept {tree : Shared (Tree Id C)} (kept : c.trees.get? text = some tree) :
    c.answer text = .ok tree.content := by
  rw [answer, compile_of_kept kept]
  rfl

theorem answer_of_missing (missing : c.trees.get? text = none) :
    c.answer text = (fun t => Id.run t.fold) <$> c.grammar.parse text 0 := by
  rw [answer]
  cases parsed : c.grammar.parse text 0 with
  | error e =>
    rw [compile_of_error missing parsed]
    rfl
  | ok t =>
    rw [compile_of_ok missing parsed]
    rfl

/-- Compiling a text changes no answer. -/
theorem answer_compile (c : Compiler Id C) (text other : String) :
    (Id.run (c.compile text)).2.answer other = c.answer other := by
  cases kept : c.trees.get? text with
  | some tree => rw [compile_of_kept kept]
  | none =>
    cases parsed : c.grammar.parse text 0 with
    | error e => rw [compile_of_error kept parsed]
    | ok t =>
      rw [compile_of_ok kept parsed]
      by_cases same : other = text
      · rw [same, answer_of_missing kept, parsed, answer_of_kept (Store.get?_cons_self ..)]
        rfl
      · have elsewhere := Store.get?_cons_of_ne same c.trees.entries
          (⟨c.made, Id.run t.fold⟩ : Shared (Tree Id C))
        cases found : c.trees.get? other with
        | some tree => rw [answer_of_kept found, answer_of_kept (elsewhere.trans found)]
        | none => rw [answer_of_missing found, answer_of_missing (elsewhere.trans found)]

end Compiler

end Formula
