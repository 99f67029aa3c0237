import Formula.Proofs.Ahead
import Formula.Proofs.Literals
import Formula.Tree.Render

/-!
# Quoted strings

Every string has a text from which a compiler makes a leaf with that string, whichever operators stand behind the
built-in ones. Its quotes keep all other tokens out, and the operator that joins its pieces is the built-in one.
-/

namespace Formula

variable {m : Type → Type} {σ C : Type}

/-! ## Tokens behind the built-in ones -/

theorem Entry.find?_table {ops : List (Operator m C)} {place : Nat} {op : Operator m C}
    (found : ops[place]? = some op) (first : ∀ token ∈ (ops.map Operator.token).take place, token ≠ op.token) :
    (table ops).find? (fun other => other.token == op.token.toList) =
      some (ofOperator (ops.map fun op => op.token.toList) op place) := by
  have listed : (table ops)[place]? = some (ofOperator (ops.map fun op => op.token.toList) op place) := by
    simp only [table, List.getElem?_map, List.getElem?_zipIdx, found, Option.map_some, Nat.zero_add]
  obtain ⟨bound, here⟩ := List.getElem?_eq_some_iff.mp listed
  refine List.find?_eq_some_iff_getElem.mpr ⟨beq_self_eq_true _, place, bound, here, fun k before => ?_⟩
  have within : k < ops.length := (before.trans bound).trans_eq (by simp [table])
  have member : ops[k].token ∈ (ops.map Operator.token).take place :=
    List.mem_take_iff_getElem.mpr ⟨k, by rw [List.length_map]; omega, by simp⟩
  rw [Bool.not_eq_true', beq_eq_false_iff_ne]
  simp only [table, List.getElem_map, List.getElem_zipIdx, ofOperator]
  exact fun same => first _ member (String.toList_inj.mp same)

namespace Vocabulary

/-- Between blanks the operator that joins texts is recognized, whatever tokens there are besides. -/
theorem exists_joined [Monad m] (host : Host) (custom : Vocabulary m C) (spacing : Spacing) :
    ∃ entry, (Grammar.ofVocabulary ((builtin host).append custom) spacing).Stands entry ∧
      entry.token = ['^'] ∧ entry.op.foldable ∧
        ∀ a b context, entry.op.run [a, b] context = pure (a.joined b) := by
  let op : Operator m C := (pureBinary "^" Value.joined).withFoldable true
  have found : ((builtin host).append custom).binary[5]? = some op := rfl
  have first : (((builtin host).append custom).binary.map Operator.token).take 5 = [".", "*", "/", "+", "-"] :=
    rfl
  let entry := Entry.ofOperator (((builtin host).append custom).binary.map fun op => op.token.toList) op 5
  have name : op.token = "^" := rfl
  have token : entry.token = ['^'] := (congrArg String.toList name).trans (by decide)
  have others : ∀ token ∈ [".", "*", "/", "+", "-"], token ≠ "^" := by decide
  refine ⟨entry, ⟨?_, Entry.find?_table found ?_, ?_⟩, token, rfl, fun _ _ _ => rfl⟩
  · rw [token]
    exact List.cons_ne_nil _ _
  · rw [first]
    exact others
  · intro other _ before behind split start last
    have length := congrArg List.length (token.symm.trans split)
    have positive := List.length_pos_iff.mpr start
    have positive' := List.length_pos_iff.mpr last
    rw [List.length_append, List.length_append, List.length_singleton] at length
    omega

end Vocabulary

/-! ## Compilers -/

namespace Compiler

/-- A text whose tree is foldable and calls nothing that looks at the state compiles to a leaf, whatever the
compiler remembers. -/
theorem Reached.result_eq_leaf {g : Grammar (StateM σ) C} {c : Compiler (StateM σ) C}
    (reached : Reached (ofGrammar g) c) {text : String} {t : Tree (StateM σ) C} {value : Value}
    (parses : g.parse text 0 = .ok t) (foldable : t.isFoldable) (eval : t.eval none = pure value)
    (fresh : Bool) (s : σ) : c.result text 0 fresh s = .ok (.leaf value) := by
  cases answer : c.result text 0 fresh s with
  | error e =>
    have refused := reached.result_eq_error.mp answer
    rw [parses] at refused
    cases refused
  | ok u =>
    obtain ⟨parsed, start, parses', rfl⟩ := reached.folds_of_result answer
    obtain rfl : t = parsed := Except.ok.inj (parses.symm.trans parses')
    rw [Tree.fold_of_isFoldable foldable, eval]
    rfl

/-- The text of a leaf with a string compiles to just this leaf, whatever the string contains, if no token
contains a blank, a bracket or a quote. -/
theorem compiles_quoted (host : Host) (custom : Vocabulary (StateM σ) C) (clear : custom.Clear)
    (spacing : Spacing) (c : Compiler (StateM σ) C) (reached : Reached (standard host custom spacing) c)
    (string : String) (fresh : Bool) (s : σ) :
    c.result (Tree.leaf (.string string) : Tree (StateM σ) C).expr 0 fresh s = .ok (.leaf (.string string)) := by
  have builtin := (Vocabulary.builtin_spelled (m := StateM σ) (C := C) host).tidy.clear
  obtain ⟨entry, stands, token, foldable, joined⟩ := Vocabulary.exists_joined host custom spacing
  obtain ⟨t, _, reads, folds, value⟩ :=
    Grammar.exists_reads_quote (builtin.append clear) stands token joined string
  have parses := (reads [] .ending).within.parse
  exact reached.result_eq_leaf parses (folds foldable) (value none) fresh s

/-- The string contains both quotes, and the tokens of the custom operators. -/
theorem compiles_quoted_both :
    Vocabulary.counter.Clear ∧
      (Tree.leaf (.string "next\"+'") : Tree (StateM Nat) Unit).expr = "('next\"+' ^ \"'\")" ∧
      (standard ⟨fun _ _ => .absent⟩ Vocabulary.counter .optional).result "('next\"+' ^ \"'\")" 0 false 7 =
        .ok (.leaf (.string "next\"+'")) := by
  have avoids (marks : Char → Bool) (apart : ['+', 'n', 'e', 'x', 't'].any marks = false) (c : Char)
      (holds : marks c) : Vocabulary.counter.Avoids c :=
    have absent : c ∉ ['+', 'n', 'e', 'x', 't'] := fun member => List.any_eq_false.mp apart c member holds
    Vocabulary.counter_avoids (fun member => absent (List.mem_append_left _ member))
      fun member => absent (List.mem_append_right ['+'] member)
  have clear : Vocabulary.counter.Clear :=
    ⟨avoids isBlank rfl, avoids (· == '(') rfl '(' rfl, avoids (· == ')') rfl ')' rfl, avoids isQuote rfl⟩
  have text : (Tree.leaf (.string "next\"+'") : Tree (StateM Nat) Unit).expr = "('next\"+' ^ \"'\")" := by
    decide
  refine ⟨clear, text, ?_⟩
  rw [← text]
  exact compiles_quoted _ _ clear .optional _ .start _ false 7

end Compiler

end Formula
