import Formula.Proofs.Folded
import Formula.Proofs.Nesting

/-!
# Literals of data

The literal of what is not a list, a map or a callable is compiled to that value. The literal of a list or a map
holds its JSON text, so that what it is compiled to depends on what is read from that text.
-/

namespace Formula

namespace Value

/-- What is read from the JSON text of a nested value equals it. -/
theorem Nested.same_readJson {v : Value} (nested : v.Nested Json.depthLimit) :
    ∃ json, v.toJson? = some json ∧ (Value.string (String.ofList json.chars)).readJson.same v := by
  obtain ⟨json, tokens, read, back⟩ := nested.comesBack
  have found : Json.read? json.chars = some read := back.reads.read? le_rfl back.lexes
  have chars : (Value.string (String.ofList json.chars)).chars = json.chars := String.toList_ofList
  refine ⟨json, back.written, ?_⟩
  rw [readJson, chars, found]
  exact back.same

theorem exists_rereadsApart {C : Type} {v : Vocabulary Id C} {host : Host} (legible : v.Legible .wordsOnly)
    (restores : v.Restores host) {value : Value}
    (data : value.isObject = false ∨ value.Nested Json.depthLimit) :
    ∃ found : Value,
      (Grammar.ofVocabulary v .wordsOnly).RereadsApart value.isPointed value.literal (.leaf found) ∧
        found.same value ∧ (value.isObject = false → found = value) := by
  cases object : value.isObject with
  | false =>
    have isData : value.isData := by
      cases value with
      | callable => cases object
      | _ => rfl
    have restorable : value.Restorable := by
      cases value with
      | list | map => cases object
      | _ => trivial
    obtain ⟨found, rereads, restored⟩ := Grammar.rereads_value legible restores isData
    obtain rfl := restored restorable
    exact ⟨_, rereads, same_refl _, fun _ => rfl⟩
  | true =>
    have nested := data.resolve_left (by simp [object])
    obtain ⟨json, written, same⟩ := nested.same_readJson
    cases nested with
    | list | map =>
      obtain rfl := Option.some.inj written
      refine ⟨_, (Grammar.rereads_json legible restores _).apart _, same, fun scalar => ?_⟩
      cases scalar
    | _ => cases object

end Value

namespace Compiler

variable {C : Type}

/-- The text of a value is compiled to an equal value. What is not a list or a map comes back as it is, also as a
zero with its sign. A list or a map must be made of what JSON has, with no more containers in each other than its
reader lets stay open, and of numbers that survive their JSON text. -/
theorem restores_data (host : Host) {v : Value}
    (data : v.isObject = false ∨ v.Nested Json.depthLimit) :
    ∃ u : Tree Id C, (standard host ⟨[], [], []⟩ .wordsOnly).answer (Tree.leaf v : Tree Id C).expr = .ok u ∧
      ∀ context, (u.eval context).same v ∧ (v.isObject = false → u.eval context = v) := by
  have legible := (Vocabulary.builtin_spelled (m := Id) (C := C) host).legible .wordsOnly
  obtain ⟨found, rereads, alike⟩ := Value.exists_rereadsApart legible (Vocabulary.builtin_restores host) data
  obtain ⟨w, parses, value⟩ :=
    Grammar.RereadsRow.parse (t := (.leaf v : Tree Id C)) (u := .leaf found) rereads.row
  obtain ⟨u, answer, value'⟩ := exists_answer_standard host parses
  refine ⟨u, answer, fun context => ?_⟩
  rw [value', value, Tree.eval_leaf]
  exact alike

/-- Zero loses its sign in the list, which makes no difference. -/
theorem restores_data_of_map :
    ∃ u : Tree Id Unit,
      (standard ⟨fun _ _ => .absent⟩ ⟨[], [], []⟩ .wordsOnly).answer
          (Tree.leaf (.map [("it's", .list [.number (Numeral.read "0.5".toList), .number (.zero true), .null]),
            ("\"", .bool true)]) : Tree Id Unit).expr = .ok u ∧
        ∀ context, (u.eval context).same
          (.map [("it's", .list [.number (Numeral.read "0.5".toList), .number (.zero true), .null]),
            ("\"", .bool true)]) := by
  have half : Json.Keeps (Numeral.read "0.5".toList) := ⟨by decide +kernel, Or.inr (by decide +kernel)⟩
  have zero : Json.Keeps (.zero true) := ⟨rfl, Or.inl ⟨0, by decide +kernel, by decide⟩⟩
  have items : ∀ item ∈ [.number (Numeral.read "0.5".toList), .number (.zero true), .null],
      Value.Nested 125 item := by
    simp only [List.forall_mem_cons, List.not_mem_nil, false_imp_iff, implies_true, and_true]
    exact ⟨.number half, .number zero, .null⟩
  have entries : ∀ entry ∈ [("it's", Value.list [.number (Numeral.read "0.5".toList), .number (.zero true), .null]),
      ("\"", .bool true)], Value.Nested 126 entry.2 := by
    simp only [List.forall_mem_cons, List.not_mem_nil, false_imp_iff, implies_true, and_true]
    exact ⟨.list items, .bool true⟩
  obtain ⟨u, answer, alike⟩ := restores_data (C := Unit) ⟨fun _ _ => .absent⟩ (Or.inr (.map entries))
  exact ⟨u, answer, fun context => (alike context).1⟩

end Compiler

end Formula
