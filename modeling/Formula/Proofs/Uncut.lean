import Formula.Proofs.Literals

/-!
# Tokens that are read whole

The token of a constant is read as that constant and a unary token before an operand as its operator, unless
another token is met in it. The built-in tokens are read whole, but for the constant `undefined`: where no
token needs to be separated, the operator `in` is met in its middle.
-/

namespace Formula

variable {m : Type → Type} {C : Type}

/-- Whether all tokens are pieces of text without blanks, brackets and quotes, and no list has a token twice,
nor have the constants one of the unary operators. -/
structure Vocabulary.WellSpelled (v : Vocabulary m C) : Prop where
  clear : v.Clear
  some : ∀ op ∈ v.binary ++ (v.constants ++ v.unary), op.token ≠ ""
  binary : (v.binary.map fun op => op.token.toList).Nodup
  operands : ((v.constants ++ v.unary).map fun op => op.token.toList).Nodup

namespace Vocabulary

variable {v : Vocabulary m C} {spacing : Spacing} {op : Operator m C}

theorem SpelledAsBuiltin.wellSpelled (spelled : v.SpelledAsBuiltin) : v.WellSpelled where
  clear := spelled.tidy.clear
  some := by
    have tokens : ∀ token ∈ v.binary.map Operator.token ++
        (v.constants.map Operator.token ++ v.unary.map Operator.token), token ≠ "" := by
      rw [spelled.binary, spelled.constants, spelled.unary]
      decide
    rw [← List.map_append, ← List.map_append] at tokens
    exact fun op listed => tokens _ (List.mem_map_of_mem listed)
  binary := spelled.tidy.distinct
  operands := by
    rw [List.map_append, map_toList_token, map_toList_token, spelled.constants, spelled.unary]
    decide

theorem SpelledAsBuiltin.uncut (spelled : v.SpelledAsBuiltin) (listed : op ∈ v.constants ++ v.unary)
    (readable : spacing = .optional → op.token ≠ "undefined") : v.Uncut spacing op.token.toList :=
  (spelled.legible spacing).uncut listed (spelled.intact listed readable)

namespace WellSpelled

theorem exists_entry (spelled : v.WellSpelled) {ops : List (Operator m C)} (listed : op ∈ ops)
    (among : ops ⊆ v.constants ++ v.unary) :
    ∃ entry ∈ Entry.table ops, entry.op = op ∧ entry.token = op.token.toList ∧ entry.token ≠ [] := by
  obtain ⟨entry, member, rfl, token⟩ := Entry.exists_of_mem listed
  refine ⟨entry, member, rfl, token, ?_⟩
  rw [token, Ne, String.toList_eq_nil_iff]
  exact spelled.some _ (List.mem_append_right _ (among listed))

theorem apart (spelled : v.WellSpelled) :
    (v.constants.map fun op => op.token.toList).Nodup ∧ (v.unary.map fun op => op.token.toList).Nodup ∧
      ∀ op ∈ v.constants, ∀ other ∈ v.unary, op.token.toList ≠ other.token.toList := by
  have distinct := spelled.operands
  rw [List.map_append, List.nodup_append] at distinct
  exact ⟨distinct.1, distinct.2.1, fun op constant other unary =>
    distinct.2.2 _ (List.mem_map_of_mem constant) _ (List.mem_map_of_mem unary)⟩

theorem parse_constant (spelled : v.WellSpelled) (constant : op ∈ v.constants)
    (uncut : v.Uncut spacing op.token.toList) :
    (Grammar.ofVocabulary v spacing).parse op.token 0 = .ok (.constant op) := by
  obtain ⟨entry, member, rfl, token, some⟩ := spelled.exists_entry constant (List.subset_append_left ..)
  have text : entry.op.token = String.ofList entry.token := by rw [token, String.ofList_toList]
  have ending : ([] : List Char).head?.any Char.isAlphanum = false := rfl
  rw [← token] at uncut
  have reads := uncut.reads_constant spelled.clear spelled.apart.1 member some ending
  rw [text]
  exact reads.within.parse

/-- Behind the token the string stands between quotes that it does not contain. -/
theorem parse_unary (spelled : v.WellSpelled) (unary : op ∈ v.unary) (uncut : v.Uncut spacing op.token.toList)
    {s : String} (unquoted : '\'' ∉ s.toList) :
    (Grammar.ofVocabulary v spacing).parse (op.token ++ " '" ++ s ++ "'") 0 =
      .ok (.unary op (.leaf (.string s))) := by
  obtain ⟨entry, member, rfl, token, some⟩ := spelled.exists_entry unary (List.subset_append_right ..)
  obtain ⟨_, distinct, apart⟩ := spelled.apart
  have text : entry.op.token ++ " '" ++ s ++ "'" =
      String.ofList (entry.token ++ ' ' :: ('\'' :: s.toList ++ ['\''])) := by
    rw [token, String.ext_iff]
    simp
  have constants : ∀ op ∈ v.constants, op.token.toList ≠ entry.token := by
    rw [token]
    exact fun op constant => apart op constant _ unary
  rw [← token] at uncut
  have string : (Grammar.ofVocabulary v spacing).ReadsAs ('\'' :: s.toList ++ ['\'']) (.leaf (.string s)) [] := by
    have reads : (Grammar.ofVocabulary v spacing).ReadsAs _ _ [] :=
      Grammar.reads_quoted spelled.clear rfl unquoted .ending
    rwa [String.ofList_toList] at reads
  rw [text]
  exact (uncut.reads_unary spelled.clear distinct constants member some string).within.parse

end WellSpelled

end Vocabulary

/-- Constants and unary operators can be written, if no other token is met in theirs. Of the built-in ones this
is said of all but one. -/
theorem Grammar.parses_uncut [Monad m] (spacing : Spacing) :
    (∀ v : Vocabulary m C, v.WellSpelled →
        (∀ op ∈ v.constants, v.Uncut spacing op.token.toList →
          (Grammar.ofVocabulary v spacing).parse op.token 0 = .ok (.constant op)) ∧
        ∀ op ∈ v.unary, v.Uncut spacing op.token.toList → ∀ s : String, '\'' ∉ s.toList →
          (Grammar.ofVocabulary v spacing).parse (op.token ++ " '" ++ s ++ "'") 0 =
            .ok (.unary op (.leaf (.string s)))) ∧
      ∀ host : Host, (Vocabulary.builtin host : Vocabulary m C).WellSpelled ∧
        ∀ op ∈ (Vocabulary.builtin host : Vocabulary m C).constants ++ (Vocabulary.builtin host).unary,
          (spacing = .optional → op.token ≠ "undefined") →
            (Vocabulary.builtin host : Vocabulary m C).Uncut spacing op.token.toList := by
  refine ⟨fun v spelled => ⟨fun op constant uncut => ?_, fun op unary uncut s unquoted => ?_⟩, fun host => ?_⟩
  · exact spelled.parse_constant constant uncut
  · exact spelled.parse_unary unary uncut unquoted
  · have spelled := Vocabulary.builtin_spelled (m := m) (C := C) host
    exact ⟨spelled.wellSpelled, fun op listed readable => spelled.uncut listed readable⟩

theorem Grammar.parses_uncut_builtin :
    ∃ constant unary : Operator Id Unit, constant.token = "null" ∧ unary.token = "JSON" ∧
      (Grammar.ofVocabulary (.builtin ⟨fun _ _ => .absent⟩) .optional).parse "null" 0 =
        .ok (.constant constant) ∧
      (Grammar.ofVocabulary (.builtin ⟨fun _ _ => .absent⟩) .optional).parse "JSON '[in]'" 0 =
        .ok (.unary unary (.leaf (.string "[in]"))) := by
  let v : Vocabulary Id Unit := .builtin ⟨fun _ _ => .absent⟩
  obtain ⟨parses, builtin⟩ := Grammar.parses_uncut (m := Id) (C := Unit) .optional
  obtain ⟨spelled, uncut⟩ := builtin ⟨fun _ _ => .absent⟩
  obtain ⟨constants, unary⟩ := parses v spelled
  have null : v.constants[2] ∈ v.constants := List.getElem_mem _
  have json : v.unary[4] ∈ v.unary := List.getElem_mem _
  refine ⟨v.constants[2], v.unary[4], rfl, rfl, ?_, ?_⟩
  · exact constants _ null (uncut _ (List.mem_append_left _ null) fun _ => by decide)
  · exact unary _ json (uncut _ (List.mem_append_right _ json) fun _ => by decide) "[in]" (by decide)

/-- In the middle of the constant stands a binary operator that need not be separated. -/
theorem Grammar.undefined_cut :
    ∃ constant ∈ (Vocabulary.builtin ⟨fun _ _ => .absent⟩ : Vocabulary Id Unit).constants,
      constant.token = "undefined" ∧ ∃ op priority, op.token = "in" ∧
        (Grammar.ofVocabulary (.builtin ⟨fun _ _ => .absent⟩) .optional).parse "undefined" 0 =
          .ok (.binary op priority (.leaf (.string "undef")) (.leaf (.string "ed")) : Tree Id Unit) :=
  ⟨_, List.mem_of_getElem? (i := 3) rfl, rfl, _, _, rfl, rfl⟩

end Formula
