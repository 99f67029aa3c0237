import Formula.Proofs.Sameness
import Formula.Value.Order
import Formula.Value.Truth

/-!
# What equal values have in common

Values that are the same have one text form and one place on the line, and are compared alike with all others.
Their numbers may only differ in the sign of zero.
-/

namespace Formula

open List (Forall₂)

namespace Binary64

variable {m n : Binary64}

theorem isZero_congr (place : m.place? = n.place?) : m.isZero = n.isZero := by
  rw [Bool.eq_iff_iff, isZero_iff, isZero_iff, place]

theorem isNaN_congr (place : m.place? = n.place?) : m.isNaN = n.isNaN := by
  rw [Bool.eq_iff_iff, isNaN_iff, isNaN_iff, ← place?_eq_none, ← place?_eq_none, place]

theorem compare?_congr (place : m.place? = n.place?) (c : Binary64) : m.compare? c = n.compare? c := by
  rw [compare?, compare?, place]

theorem equal_congr (place : m.place? = n.place?) (c : Binary64) : m.equal c = n.equal c := by
  rw [equal, equal, compare?_congr place]

theorem compare?_swap (m n : Binary64) : n.compare? m = (m.compare? n).map Ordering.swap := by
  unfold compare?
  cases m.place? with
  | none => cases n.place? <;> rfl
  | some x =>
    cases n.place? with
    | none => rfl
    | some y => exact congrArg some Std.OrientedCmp.eq_swap

theorem equal_comm (m n : Binary64) : m.equal n = n.equal m := by
  rw [equal, equal, compare?_swap m n]
  rcases m.compare? n with _ | (_ | _ | _) <;> rfl

theorem write_of_isZero (none : n.isZero) : Numeral.write n = ['0'] := by
  cases n with
  | nan | infinity => cases none
  | finite negative units representable =>
    rw [Numeral.write, Layout.chars, if_pos (beq_iff_eq.mp none)]
    cases negative <;> rfl

theorem write_congr (place : m.place? = n.place?) : Numeral.write m = Numeral.write n := by
  rcases eq_or_isZero_of_place? place with rfl | ⟨none, none'⟩
  · rfl
  · rw [write_of_isZero none, write_of_isZero none']

end Binary64

namespace Value

variable {a b : Value}

theorem isNothing_congr (alike : a.same b) : a.isNothing = b.isNothing := by
  cases same_iff.mp alike <;> rfl

theorem isObject_congr (alike : a.same b) : a.isObject = b.isObject := by
  cases same_iff.mp alike <;> rfl

theorem isTextual_congr (alike : a.same b) : a.isTextual = b.isTextual := by
  cases same_iff.mp alike <;> rfl

theorem holds_congr (alike : a.same b) : a.holds = b.holds := by
  cases same_iff.mp alike with
  | number place => rw [holds, holds, Binary64.isZero_congr place, Binary64.isNaN_congr place]
  | _ => rfl

theorem itemChars_congr {items others : List Value}
    (each : Forall₂ (fun a b => a.isNothing = b.isNothing ∧ a.chars = b.chars) items others) :
    itemChars items = itemChars others := by
  induction each with
  | nil => rfl
  | cons first rest ih =>
    cases rest with
    | nil => rw [itemChars, itemChars, first.1, first.2]
    | cons => rw [itemChars, itemChars, first.1, first.2, ih]

theorem chars_congr (alike : a.same b) : a.chars = b.chars := by
  induction a using induction generalizing b with
  | list items ih =>
    cases same_iff.mp alike with
    | list each =>
      have both := (List.forall₂_and_left _ _).mpr ⟨ih, each⟩
      exact itemChars_congr (both.imp fun a b same => ⟨isNothing_congr same.2, same.1 same.2⟩)
  | number n =>
    cases same_iff.mp alike with
    | number place => exact Binary64.write_congr place
  | absent | null | bool | string | map | callable =>
    cases same_iff.mp alike
    rfl

theorem text_congr (alike : a.same b) : a.text = b.text :=
  congrArg String.ofList (chars_congr alike)

theorem toNumber_congr (alike : a.same b) :
    a.toNumber = b.toNumber ∨ a.toNumber.isZero ∧ b.toNumber.isZero := by
  have chars := chars_congr alike
  cases same_iff.mp alike with
  | number place => exact Binary64.eq_or_isZero_of_place? place
  | list => exact Or.inl (congrArg Numeral.read chars)
  | _ => exact Or.inl rfl

theorem place?_congr (alike : a.same b) : a.toNumber.place? = b.toNumber.place? := by
  rcases toNumber_congr alike with same | ⟨none, none'⟩
  · rw [same]
  · rw [Binary64.isZero_iff.mp none, Binary64.isZero_iff.mp none']

/-! ## Comparisons -/

theorem Scalar.equal_comm (s t : Scalar) : s.equal t = t.equal s := by
  cases s <;> cases t
  · exact Binary64.equal_comm _ _
  · rfl
  · rfl
  · exact Bool.beq_comm

theorem looselyEqual_comm (a b : Value) : a.looselyEqual b = b.looselyEqual a := by
  rw [looselyEqual, looselyEqual, Bool.or_comm, Bool.and_comm, Bool.and_comm a.isObject, same_comm,
    Scalar.equal_comm]

theorem strictlyEqual_iff : a.strictlyEqual b ↔ a.same b ∧ a ≠ .number .nan := by
  unfold strictlyEqual
  split
  · next m n =>
    have distinct : Value.number m ≠ .number .nan ↔ m ≠ .nan := not_congr (by rw [Value.number.injEq])
    rw [same_iff, Binary64.equal_iff, distinct, and_comm]
    refine and_congr_left fun _ => ⟨.number, fun parts => ?_⟩
    cases parts with
    | number place => exact place
  · next other =>
    refine ⟨fun alike => ⟨alike, ?_⟩, And.left⟩
    rintro rfl
    cases same_iff.mp alike with
    | number => exact other _ _ rfl rfl

theorem eq_nan_congr (alike : a.same b) : a = .number .nan ↔ b = .number .nan := by
  cases same_iff.mp alike with
  | number place =>
    rw [Value.number.injEq, Value.number.injEq, ← Binary64.place?_eq_none, ← Binary64.place?_eq_none, place]
  | _ => simp only [reduceCtorEq]

theorem strictlyEqual_comm (a b : Value) : a.strictlyEqual b = b.strictlyEqual a := by
  rw [Bool.eq_iff_iff, strictlyEqual_iff, strictlyEqual_iff, same_comm]
  exact and_congr_right fun alike => not_congr (eq_nan_congr (same_symm alike))

theorem scalar_equal_congr (alike : a.same b) (s : Scalar) : a.scalar.equal s = b.scalar.equal s := by
  have chars := chars_congr alike
  cases same_iff.mp alike with
  | number place =>
    cases s <;> exact Binary64.equal_congr place _
  | bool => rfl
  | _ => exact congrArg (fun chars => Scalar.equal (.text chars) s) chars

theorem looselyEqual_congr (alike : a.same b) (c : Value) : a.looselyEqual c = b.looselyEqual c := by
  rw [looselyEqual, looselyEqual, isNothing_congr alike, isObject_congr alike, same_congr alike,
    scalar_equal_congr alike]

theorem strictlyEqual_congr (alike : a.same b) (c : Value) : a.strictlyEqual c = b.strictlyEqual c := by
  rw [Bool.eq_iff_iff, strictlyEqual_iff, strictlyEqual_iff, same_congr alike, Ne, eq_nan_congr alike]

theorem compare?_congr (alike : a.same b) (c : Value) : a.compare? c = b.compare? c := by
  rw [compare?, compare?, isTextual_congr alike, text_congr alike, Binary64.compare?_congr (place?_congr alike)]

theorem compare?_swap (a b : Value) : b.compare? a = (a.compare? b).map Ordering.swap := by
  rw [compare?, compare?, Bool.and_comm]
  split
  · exact congrArg some Std.OrientedCmp.eq_swap
  · exact Binary64.compare?_swap _ _

/-- Nothing that asks for text, for a number or for a comparison tells two values apart, except that their numbers
may be zeros of unlike signs. -/
structure Interchangeable (a b : Value) : Prop where
  text : a.text = b.text
  holds : a.holds = b.holds
  isNothing : a.isNothing = b.isNothing
  number : a.toNumber = b.toNumber ∨ a.toNumber.isZero ∧ b.toNumber.isZero
  loosely (c : Value) : a.looselyEqual c = b.looselyEqual c ∧ c.looselyEqual a = c.looselyEqual b
  strictly (c : Value) : a.strictlyEqual c = b.strictlyEqual c ∧ c.strictlyEqual a = c.strictlyEqual b
  compared (c : Value) : a.compare? c = b.compare? c ∧ c.compare? a = c.compare? b

theorem Interchangeable.of_same (alike : a.same b) : a.Interchangeable b where
  text := text_congr alike
  holds := holds_congr alike
  isNothing := isNothing_congr alike
  number := toNumber_congr alike
  loosely c := by
    rw [looselyEqual_comm c a, looselyEqual_comm c b]
    exact ⟨looselyEqual_congr alike c, looselyEqual_congr alike c⟩
  strictly c := by
    rw [strictlyEqual_comm c a, strictlyEqual_comm c b]
    exact ⟨strictlyEqual_congr alike c, strictlyEqual_congr alike c⟩
  compared c := by
    rw [compare?_swap a c, compare?_swap b c, compare?_congr alike]
    exact ⟨rfl, rfl⟩

/-- Structural equality is an equivalence relation, for which a map is its bindings in any order and a callable is
itself alone, and values that are equal are interchangeable. -/
theorem same_congruence :
    (Equivalence fun a b : Value => a.same b) ∧
      (∀ entries others : Entries Value, entries.Perm others → (entries.map Prod.fst).Nodup →
        same (.map entries) (.map others)) ∧
      (∀ f v, same (.callable f) v ↔ v = .callable f) ∧
      ∀ a b : Value, a.same b → a.Interchangeable b := by
  refine ⟨⟨same_refl, same_symm, same_trans⟩, fun _ _ => same_map_perm, fun f v => ⟨fun alike => ?_, ?_⟩,
    fun _ _ => .of_same⟩
  · cases same_iff.mp alike
    rfl
  · rintro rfl
    exact same_refl _

/-- The zeros differ in their sign and the bindings in their order. -/
theorem same_congruence_list :
    same (.list [.number .nan, .map [("x", .number (.zero false)), ("y", .null)]])
        (.list [.number .nan, .map [("y", .null), ("x", .number (.zero true))]]) ∧
      Interchangeable (.list [.number .nan, .map [("x", .number (.zero false)), ("y", .null)]])
        (.list [.number .nan, .map [("y", .null), ("x", .number (.zero true))]]) ∧
      same (.map [("x", .number (.zero false)), ("y", .null)])
        (.map [("y", .null), ("x", .number (.zero false))]) := by
  obtain ⟨_, reordered, _, interchangeable⟩ := same_congruence
  exact ⟨rfl, interchangeable _ _ rfl, reordered _ _ (.swap _ _ []) (by decide)⟩

end Value

end Formula
