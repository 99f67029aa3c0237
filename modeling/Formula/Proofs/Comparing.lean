import Formula.Proofs.Congruence
import Formula.Proofs.Encoding

/-!
# The order of values

The values with text are ordered by its bytes and the others by their numbers. Either order is transitive, but not
the two together: `"9"` is below 9.5 and that below `"10"`, which comes before `"9"` as text.
-/

namespace Formula

/-- Two steps up an order are one, which is strict if either of them is. -/
theorem compare_then {α : Type} [Ord α] [Std.TransOrd α] {x y z : α} (first : (compare x y).isLE)
    (second : (compare y z).isLE) : compare x z = (compare x y).then (compare y z) := by
  cases order : compare x y with
  | lt => exact Std.TransCmp.lt_of_lt_of_isLE order second
  | eq => exact Std.TransCmp.congr_left order
  | gt =>
    rw [order] at first
    cases first

namespace Binary64

theorem compare?_eq_none {m n : Binary64} : m.compare? n = none ↔ m = .nan ∨ n = .nan := by
  rw [compare?, ← place?_eq_none, ← place?_eq_none]
  cases m.place? <;> cases n.place? <;> simp

theorem compare?_eq_some {m n : Binary64} {o : Ordering} :
    m.compare? n = some o ↔ ∃ x y, m.place? = some x ∧ n.place? = some y ∧ compare x y = o := by
  rw [compare?]
  cases m.place? <;> cases n.place? <;> simp

theorem compare?_then {l m n : Binary64} {o p : Ordering} (first : l.compare? m = some o)
    (second : m.compare? n = some p) (up : o.isLE) (up' : p.isLE) : l.compare? n = some (o.then p) := by
  obtain ⟨x, y, left, middle, rfl⟩ := compare?_eq_some.mp first
  obtain ⟨y', z, middle', right, rfl⟩ := compare?_eq_some.mp second
  obtain rfl := Option.some.inj (middle.symm.trans middle')
  exact compare?_eq_some.mpr ⟨x, z, left, right, compare_then up up'⟩

end Binary64

namespace Value

variable {a b c : Value}

theorem compare?_of_isTextual (text : a.isTextual) (text' : b.isTextual) :
    a.compare? b = some (compare a.text b.text) := by
  rw [compare?, text, text']
  rfl

theorem compare?_of_not_isTextual (plain : a.isTextual = false ∨ b.isTextual = false) :
    a.compare? b = a.toNumber.compare? b.toNumber := by
  have mixed : (a.isTextual && b.isTextual) = false := by
    rcases plain with plain | plain
    · rw [plain, Bool.false_and]
    · rw [plain, Bool.and_false]
  rw [compare?, mixed, if_neg Bool.false_ne_true]

theorem isAbove_swap (a b : Value) : b.isAbove a = a.isBelow b := by
  rw [isAbove, isBelow, compare?_swap a b]
  rcases a.compare? b with _ | (_ | _ | _) <;> rfl

theorem isAtLeast_swap (a b : Value) : b.isAtLeast a = a.isAtMost b := by
  rw [isAtLeast, isAtMost, compare?_swap a b]
  rcases a.compare? b with _ | (_ | _ | _) <;> rfl

theorem isAtLeast_of_compare? {o : Ordering} (ordered : a.compare? b = some o) :
    ∃ below, a.isBelow b = .bool below ∧ a.isAtLeast b = .bool !below := by
  rw [isBelow, isAtLeast, ordered]
  refine ⟨some o == some .lt, rfl, ?_⟩
  cases o <;> rfl

theorem compare?_then {o p : Ordering} (alike : a.isTextual = b.isTextual) (alike' : b.isTextual = c.isTextual)
    (first : a.compare? b = some o) (second : b.compare? c = some p) (up : o.isLE) (up' : p.isLE) :
    a.compare? c = some (o.then p) := by
  cases text : b.isTextual with
  | true =>
    rw [text] at alike alike'
    rw [compare?_of_isTextual alike text] at first
    rw [compare?_of_isTextual text alike'.symm] at second
    cases first
    cases second
    rw [compare?_of_isTextual alike alike'.symm, compare_then up up']
  | false =>
    rw [text] at alike
    rw [compare?_of_not_isTextual (Or.inr text)] at first
    rw [compare?_of_not_isTextual (Or.inl text)] at second
    rw [compare?_of_not_isTextual (Or.inl alike)]
    exact Binary64.compare?_then first second up up'

/-- Comparing the other way round gives the reverse, and of two values that are ordered exactly one comes before the
other or does not. Values with text are always ordered, as the bytes of their texts are; other values are ordered
unless one of them is not a number. Within either kind the order is transitive. -/
theorem compares_coherently :
    (∀ a b : Value, b.compare? a = (a.compare? b).map Ordering.swap) ∧
      (∀ a b : Value, a.isBelow b = b.isAbove a ∧ a.isAtMost b = b.isAtLeast a) ∧
      (∀ a b : Value, a.compare? b ≠ none → ∃ below, a.isBelow b = .bool below ∧ a.isAtLeast b = .bool !below) ∧
      (∀ a b : Value, a.isTextual → b.isTextual →
        a.compare? b = some (compare (Utf8.bytes a.text) (Utf8.bytes b.text))) ∧
      (∀ a b : Value, a.isTextual = false ∨ b.isTextual = false →
        (a.compare? b = none ↔ a.toNumber = .nan ∨ b.toNumber = .nan)) ∧
      ∀ (a b c : Value) (o p : Ordering), a.isTextual = b.isTextual → b.isTextual = c.isTextual →
        a.compare? b = some o → b.compare? c = some p → o.isLE → p.isLE → a.compare? c = some (o.then p) := by
  refine ⟨compare?_swap, fun a b => ⟨(isAbove_swap a b).symm, (isAtLeast_swap a b).symm⟩, ?_, ?_, ?_,
    fun _ _ _ _ _ => compare?_then⟩
  · intro a b ordered
    obtain ⟨o, ordered⟩ := Option.ne_none_iff_exists'.mp ordered
    exact isAtLeast_of_compare? ordered
  · intro a b text text'
    rw [compare?_of_isTextual text text', Utf8.compare_bytes]
  · intro a b plain
    rw [compare?_of_not_isTextual plain, Binary64.compare?_eq_none]

/-- A map, a callable and a string, the last of which is not ASCII, beside values without text. -/
theorem compares_coherently_texts :
    (∃ below, isBelow (.map []) (.callable ⟨"f"⟩) = .bool below ∧
        isAtLeast (.map []) (.callable ⟨"f"⟩) = .bool !below) ∧
      compare? (.callable ⟨"f"⟩) (.string "é") =
        some (compare (Utf8.bytes (text (.callable ⟨"f"⟩))) (Utf8.bytes (text (.string "é")))) ∧
      (compare? .absent (.string "é") = none ↔ toNumber .absent = .nan ∨ toNumber (.string "é") = .nan) ∧
      compare? (.map []) (.string "é") = some (Ordering.then .lt .lt) := by
  obtain ⟨_, _, apart, texts, numbers, transitive⟩ := compares_coherently
  have first : compare? (.map []) (.callable ⟨"f"⟩) = some .lt := by decide +kernel
  have second : compare? (.callable ⟨"f"⟩) (.string "é") = some .lt := by decide +kernel
  refine ⟨apart _ _ ?_, texts _ _ rfl rfl, numbers _ _ (Or.inl rfl),
    transitive _ (.callable ⟨"f"⟩) _ _ _ rfl rfl first second rfl rfl⟩
  rw [first]
  exact Option.some_ne_none _

/-- The order goes round where text and numbers are mixed. -/
example : compare? (.string "9") (.number (Numeral.read "9.5".toList)) = some .lt ∧
    compare? (.number (Numeral.read "9.5".toList)) (.string "10") = some .lt ∧
    compare? (.string "9") (.string "10") = some .gt := by
  decide +kernel

end Value

end Formula
