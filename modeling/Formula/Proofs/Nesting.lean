import Formula.Proofs.Lexing
import Formula.Proofs.Sameness
import Formula.Value.Json

/-!
# Nested values as JSON

A list or a map that is made of what JSON has comes back from its JSON text, unless one of its numbers does not
or too many containers are open at a time.
-/

namespace Formula

open List (Forall₂)

/-! ## Bindings -/

namespace Entries

variable {α : Type} {key : String}

/-- Sets one binding after the other. -/
def setAll (entries bindings : Entries α) : Entries α :=
  bindings.foldl (fun entries binding => set binding.1 binding.2 entries) entries

theorem lookup?_setAll (entries bindings : Entries α) :
    lookup? key (setAll entries bindings) = (lookup? key bindings).or (lookup? key entries) := by
  induction bindings generalizing entries with
  | nil => rfl
  | cons binding rest ih =>
    rw [setAll, List.foldl_cons, ← setAll, ih, lookup?, Option.or_assoc]
    by_cases same : binding.1 = key
    · rw [if_pos same, same, lookup?_set_self, Option.some_or]
    · rw [if_neg same, lookup?_set_of_ne same, Option.none_or]

end Entries

namespace Value

theorem lookup?_ofEntries (key : String) (entries : Entries Json) :
    Entries.lookup? key (ofEntries entries) = (Entries.lookup? key entries).map ofJson := by
  induction entries with
  | nil => rfl
  | cons entry rest ih =>
    rw [ofEntries, Entries.lookup?, Entries.lookup?, ih, Option.map_or]
    congr 1
    split <;> rfl

end Value

/-! ## Reading tokens -/

namespace Json

/-- Whether tokens are read as a value where as many more containers may be open as are counted. -/
def ReadsAs (depth : Nat) (tokens : List Token) (value : Json) : Prop :=
  ∀ stack first, stack.length + depth ≤ depthLimit →
    tokens.foldlM Reader.step? (.reading stack (.value first)) = some (Reader.deliver value stack)

theorem ReadsAs.read? {depth : Nat} {text : List Char} {tokens : List Token} {value : Json}
    (reads : ReadsAs depth tokens value) (few : depth ≤ depthLimit) (lexes : Lexes text tokens) :
    Json.read? text = some value := by
  have found : tokens? text = some tokens := by
    have rest := lexes [] [] rfl
    rw [List.append_nil, List.append_nil] at rest
    have done : Lexer.rest? ⟨.between, tokens.reverse⟩ [] = some tokens.reverse.reverse := rfl
    rw [done, List.reverse_reverse] at rest
    exact rest
  have folded := reads [] false (by simpa using few)
  rw [Json.read?, found, Option.bind_some, ofTokens?, folded]
  rfl

section

variable {depth : Nat} {tokens : List (List Token)} {items : List Json} {stack : List Frame}

/-- Items with commas between them go into the open array. -/
theorem foldlM_items (reads : Forall₂ (ReadsAs depth) tokens items) (nonempty : items ≠ [])
    (few : stack.length + 1 + depth ≤ depthLimit) (before : List Json) (first : Bool) :
    ([Token.mark ','].intercalate tokens).foldlM Reader.step? (.reading (.array before :: stack) (.value first)) =
      some (.reading (.array (items.reverse ++ before) :: stack) .comma) := by
  induction reads generalizing before first with
  | nil => exact absurd rfl nonempty
  | @cons token item tokens items reads others ih =>
    have value := reads (.array before :: stack) first few
    cases others with
    | nil =>
      rw [List.intercalate_singleton, value]
      rfl
    | cons next others =>
      rw [List.intercalate_cons_cons, List.append_assoc, List.foldlM_append, value]
      have later := ih (List.cons_ne_nil _ _) (item :: before) false
      rw [List.reverse_cons, List.append_assoc]
      exact later

theorem ReadsAs.array (reads : Forall₂ (ReadsAs depth) tokens items) :
    ReadsAs (depth + 1) (.mark '[' :: ([Token.mark ','].intercalate tokens ++ [.mark ']'])) (.array items) := by
  intro stack first few
  have room : stack.length < depthLimit := by omega
  have opening : Reader.step? (.reading stack (.value first)) (.mark '[') =
      some (.reading (.array [] :: stack) (.value true)) := if_pos room
  rw [List.foldlM_cons, opening, Option.bind_eq_bind, Option.bind_some, List.foldlM_append]
  cases reads with
  | nil => rfl
  | cons reads others =>
    rw [foldlM_items (.cons reads others) (List.cons_ne_nil _ _) (by omega), List.append_nil, Option.bind_eq_bind,
      Option.bind_some]
    show some (Reader.deliver (.array (_ :: _).reverse.reverse) stack) = _
    rw [List.reverse_reverse]

/-- The tokens of an entry: its key, a colon and those of its value. -/
def entryTokens (entry : String × List Token) : List Token :=
  .string entry.1 :: .mark ':' :: entry.2

variable {texts : List (String × List Token)} {entries : Entries Json}

theorem foldlM_entry (key : String) {value : Json} {tokens : List Token} (reads : ReadsAs depth tokens value)
    (few : stack.length + 1 + depth ≤ depthLimit) (before : Entries Json) (name : String) (first : Bool) :
    (entryTokens (key, tokens)).foldlM Reader.step? (.reading (.object before name :: stack) (.key first)) =
      some (.reading (.object (before.set key value) key :: stack) .comma) :=
  reads (.object before key :: stack) false few

/-- Entries with commas between them are set in the open object one after the other. -/
theorem foldlM_entries (reads : Forall₂ (fun a b => a.1 = b.1 ∧ ReadsAs depth a.2 b.2) texts entries)
    (nonempty : entries ≠ []) (few : stack.length + 1 + depth ≤ depthLimit) (before : Entries Json)
    (name : String) (first : Bool) :
    ∃ last, ([Token.mark ','].intercalate (texts.map entryTokens)).foldlM Reader.step?
        (.reading (.object before name :: stack) (.key first)) =
      some (.reading (.object (before.setAll entries) last :: stack) .comma) := by
  induction reads generalizing before name first with
  | nil => exact absurd rfl nonempty
  | @cons text entry texts entries reads others ih =>
    obtain ⟨key, tokens⟩ := text
    obtain ⟨_, value⟩ := entry
    obtain ⟨rfl, reads⟩ := reads
    have step := foldlM_entry key reads few before name first
    cases others with
    | nil =>
      refine ⟨key, ?_⟩
      rw [List.map_singleton, List.intercalate_singleton, step]
      rfl
    | cons next others =>
      obtain ⟨last, later⟩ := ih (List.cons_ne_nil _ _) (before.set key value) key false
      refine ⟨last, ?_⟩
      rw [List.map_cons, List.map_cons, List.intercalate_cons_cons, List.append_assoc, List.foldlM_append, step]
      exact later

theorem ReadsAs.object (reads : Forall₂ (fun a b => a.1 = b.1 ∧ ReadsAs depth a.2 b.2) texts entries) :
    ReadsAs (depth + 1)
      (.mark '\x7b' :: ([Token.mark ','].intercalate (texts.map entryTokens) ++ [.mark '\x7d']))
      (.object (Entries.setAll [] entries)) := by
  intro stack first few
  have room : stack.length < depthLimit := by omega
  have opening : Reader.step? (.reading stack (.value first)) (.mark '\x7b') =
      some (.reading (.object [] "" :: stack) (.key true)) := if_pos room
  rw [List.foldlM_cons, opening, Option.bind_eq_bind, Option.bind_some, List.foldlM_append]
  cases reads with
  | nil => rfl
  | cons reads others =>
    obtain ⟨last, inner⟩ := foldlM_entries (.cons reads others) (List.cons_ne_nil _ _)
      (by omega : stack.length + 1 + depth ≤ depthLimit) [] "" true
    rw [inner]
    rfl

end

/-- Whether a finite number is read again from its JSON text. The whole numbers that have the text of an integer
are, but for the sign of zero. -/
def Keeps (n : Binary64) : Prop :=
  n.isFinite ∧ ((∃ i, n.toInt? = some i ∧ i.natAbs ≤ greatestExact) ∨ readNumber? (numberChars n) = some n)

end Json

/-! ## Values -/

/-- Values of what JSON has, with numbers that survive their JSON text and no more containers around any part than
are counted. -/
inductive Value.Nested : Nat → Value → Prop
  | null {depth : Nat} : Nested depth .null
  | bool {depth : Nat} (b : Bool) : Nested depth (.bool b)
  | number {depth : Nat} {n : Binary64} (kept : Json.Keeps n) : Nested depth (.number n)
  | string {depth : Nat} (s : String) : Nested depth (.string s)
  | list {depth : Nat} {items : List Value} (are : ∀ item ∈ items, Nested depth item) :
      Nested (depth + 1) (.list items)
  | map {depth : Nat} {entries : List (String × Value)} (are : ∀ entry ∈ entries, Nested depth entry.2) :
      Nested (depth + 1) (.map entries)

/-- Whether a value has JSON text that is read as an equal value. -/
structure Value.ComesBack (depth : Nat) (v : Value) (json : Json) (tokens : List Json.Token) (read : Json) :
    Prop where
  written : v.toJson? = some json
  lexes : Json.Lexes json.chars tokens
  reads : Json.ReadsAs depth tokens read
  same : (Value.ofJson read).same v

namespace Value

theorem comesBack_number {depth : Nat} {n : Binary64} (kept : Json.Keeps n) :
    ∃ json tokens read, (Value.number n).ComesBack depth json tokens read := by
  obtain ⟨finite, exact⟩ := kept
  by_cases zero : n.isZero
  · have reads : Json.readNumber? (Json.numberChars (.zero false)) = some (.zero false) :=
      by decide +kernel
    refine ⟨.number (.zero false), _, .number (.zero false), ?_, Json.lexes_number reads, fun _ _ _ => rfl, ?_⟩
    · rw [toJson?, numberToJson, if_pos zero]
    · rw [ofJson, same, Bool.or_eq_true]
      exact Or.inl (Binary64.zero_equal zero)
  · have signed : n ≠ .zero true := by
      rintro rfl
      exact zero rfl
    have number : n ≠ .nan := by
      rintro rfl
      cases finite
    have reads : Json.readNumber? (Json.numberChars n) = some n := by
      rcases exact with ⟨i, whole, small⟩ | exact
      · exact Json.readNumber?_of_whole whole small signed
      · exact exact
    refine ⟨.number n, _, .number n, ?_, Json.lexes_number reads, fun _ _ _ => rfl, ?_⟩
    · rw [toJson?, numberToJson, if_neg zero, if_pos finite]
    · rw [ofJson, same, Bool.or_eq_true]
      exact Or.inl (Binary64.equal_self number)

section

variable {depth : Nat} {items : List Value} {entries : List (String × Value)}

theorem comesBack_items (each : ∀ item ∈ items, ∃ json tokens read, item.ComesBack depth json tokens read) :
    ∃ tokens reads, Json.Lexes (Json.itemChars (itemsToJson items)) ([Json.Token.mark ','].intercalate tokens) ∧
      Forall₂ (Json.ReadsAs depth) tokens reads ∧ sameItems (ofItems reads) items := by
  induction items with
  | nil => exact ⟨[], [], .nil, .nil, rfl⟩
  | cons item rest ih =>
    obtain ⟨⟨json, tokens, read, back⟩, others⟩ := List.forall_mem_cons.mp each
    obtain ⟨texts, reads, lexes, allRead, same⟩ := ih others
    have written : itemsToJson (item :: rest) = json :: itemsToJson rest := by
      rw [itemsToJson, back.written, Option.getD_some]
    refine ⟨tokens :: texts, read :: reads, ?_, .cons back.reads allRead, ?_⟩
    · rw [written]
      cases rest with
      | nil =>
        cases allRead with
        | nil =>
          rw [List.intercalate_singleton]
          exact back.lexes
        | cons => cases same
      | cons next rest =>
        cases allRead with
        | nil => cases same
        | cons =>
          rw [List.intercalate_cons_cons, List.append_assoc]
          exact back.lexes.mark (by simp) lexes
    · rw [ofItems, sameItems, back.same, same]
      rfl

theorem comesBack_list (each : ∀ item ∈ items, ∃ json tokens read, item.ComesBack depth json tokens read) :
    ∃ json tokens read, (Value.list items).ComesBack (depth + 1) json tokens read := by
  obtain ⟨tokens, reads, lexes, each, equal⟩ := comesBack_items each
  refine ⟨.array (itemsToJson items), _, .array reads, rfl, ?_, .array each, ?_⟩
  · exact Json.Lexes.nil.mark (by simp) (lexes.mark (by simp) .nil)
  · rw [ofJson, same]
    exact equal

theorem entriesToJson_cons {key : String} {value : Value} {json : Json} (written : value.toJson? = some json)
    (rest : List (String × Value)) :
    entriesToJson ((key, value) :: rest) = (key, json) :: entriesToJson rest := by
  rw [entriesToJson, written]

theorem comesBack_entries
    (each : ∀ entry ∈ entries, ∃ json tokens read, entry.2.ComesBack depth json tokens read) :
    ∃ (texts : List (String × List Json.Token)) (reads : Entries Json),
      Json.Lexes (Json.entryChars (entriesToJson entries))
          ([Json.Token.mark ','].intercalate (texts.map Json.entryTokens)) ∧
        Forall₂ (fun a b => a.1 = b.1 ∧ Json.ReadsAs depth a.2 b.2) texts reads ∧
          Forall₂ (fun a b => a.1 = b.1 ∧ (ofJson a.2).same b.2) reads entries := by
  induction entries with
  | nil => exact ⟨[], [], .nil, .nil, .nil⟩
  | cons entry rest ih =>
    obtain ⟨key, value⟩ := entry
    obtain ⟨⟨json, tokens, read, back⟩, others⟩ := List.forall_mem_cons.mp each
    obtain ⟨texts, reads, lexes, allRead, same⟩ := ih others
    have first : Json.Lexes (Json.stringChars key ++ ':' :: json.chars) (Json.entryTokens (key, tokens)) :=
      (Json.lexes_string key).mark (by simp) back.lexes
    refine ⟨(key, tokens) :: texts, (key, read) :: reads, ?_, .cons ⟨rfl, back.reads⟩ allRead,
      .cons ⟨rfl, back.same⟩ same⟩
    rw [entriesToJson_cons back.written]
    cases rest with
    | nil =>
      cases same
      cases allRead
      rw [List.map_singleton, List.intercalate_singleton]
      exact first
    | cons next rest =>
      obtain ⟨_, _, _, back'⟩ := others next List.mem_cons_self
      rw [entriesToJson_cons back'.written] at lexes ⊢
      cases same
      cases allRead
      rw [List.map_cons, List.map_cons, List.intercalate_cons_cons, List.append_assoc]
      exact first.mark (by simp) lexes

theorem comesBack_map
    (each : ∀ entry ∈ entries, ∃ json tokens read, entry.2.ComesBack depth json tokens read) :
    ∃ json tokens read, (Value.map entries).ComesBack (depth + 1) json tokens read := by
  obtain ⟨texts, reads, lexes, each, alike⟩ := comesBack_entries each
  refine ⟨.object (entriesToJson entries), _, .object (Entries.setAll [] reads), rfl, ?_, .object each, ?_⟩
  · exact Json.Lexes.nil.mark (by simp) (lexes.mark (by simp) .nil)
  · rw [ofJson]
    refine same_map_iff.mpr fun key => ?_
    have none : Entries.lookup? key ([] : Entries Json) = .none := rfl
    rw [lookup?_ofEntries, Entries.lookup?_setAll, none, Option.or_none]
    have both := Entries.lookup?_of_forall₂ (R := fun a b => (ofJson a).same b) alike key
    generalize Entries.lookup? key reads = here at both ⊢
    generalize Entries.lookup? key entries = there at both ⊢
    cases both with
    | some equal => exact .some equal
    | none => exact .none

theorem Nested.comesBack {v : Value} (nested : v.Nested depth) :
    ∃ json tokens read, v.ComesBack depth json tokens read := by
  induction nested with
  | null =>
    refine ⟨.null, [.null], .null, rfl, ?_, fun _ _ _ => rfl, rfl⟩
    exact Json.lexes_word (List.cons_ne_nil _ _) (List.all_eq_true.mp rfl) rfl
  | bool b =>
    refine ⟨.bool b, [.bool b], .bool b, rfl, ?_, fun _ _ _ => rfl, beq_self_eq_true b⟩
    cases b <;> exact Json.lexes_word (List.cons_ne_nil _ _) (List.all_eq_true.mp rfl) rfl
  | number kept => exact comesBack_number kept
  | string s => exact ⟨_, _, .string s, rfl, Json.lexes_string s, fun _ _ _ => rfl, by simp [ofJson, same]⟩
  | list _ ih => exact comesBack_list ih
  | map _ ih => exact comesBack_map ih

end

end Value

end Formula
