import Formula.Proofs.Congruence
import Formula.Value.Arithmetic
import Formula.Value.Collection

/-!
# How the equalities fit together

Strict equality implies the other two, of which each is symmetric. So an item that is taken out of a list is gone
and one that is put in is there, although loose equality decides about the former and strict equality about the
latter.
-/

namespace Formula

theorem Binary64.ofNat_ne_nan (n : Nat) : ofNat n ≠ .nan := by
  unfold ofNat round
  split <;> simp only [ne_eq, reduceCtorEq, not_false_eq_true]

namespace Value

variable {a b : Value}

theorem looselyEqual_self (distinct : a ≠ .number .nan) : a.looselyEqual a := by
  cases a with
  | absent | null => rfl
  | bool t => exact Binary64.equal_self (Binary64.ofNat_ne_nan _)
  | number n =>
    refine Binary64.equal_self ?_
    rintro rfl
    exact distinct rfl
  | string s => exact beq_self_eq_true s.toList
  | list | map | callable => exact same_refl _

theorem looselyEqual_of_strictlyEqual (equal : a.strictlyEqual b) : a.looselyEqual b := by
  obtain ⟨alike, distinct⟩ := strictlyEqual_iff.mp equal
  rw [looselyEqual_comm, ← looselyEqual_congr alike]
  exact looselyEqual_self distinct

/-! ## One conversion at a time -/

/-- Truth values have become numbers by the time that objects become text. -/
theorem looselyEqual_bool (t : Bool) (b : Value) :
    looselyEqual (.bool t) b = looselyEqual (.number (.ofNat t.toNat)) b :=
  rfl

theorem looselyEqual_of_isObject (object : a.isObject) (other : b.isObject = false) :
    a.looselyEqual b = looselyEqual (.string a.text) b := by
  have chars : (Value.string a.text).chars = a.chars := String.toList_ofList
  cases a with
  | list | map | callable =>
    have kept := congrArg (fun chars => Scalar.equal (.text chars) b.scalar) chars.symm
    rw [looselyEqual, looselyEqual, other, Bool.and_false, Bool.and_false]
    exact congrArg (ite (b.isNothing = true) false) kept
  | _ => cases object

theorem looselyEqual_of_objects (object : a.isObject) (object' : b.isObject) : a.looselyEqual b = a.same b := by
  have given : ∀ v : Value, v.isObject → v.isNothing = false := by
    intro v object
    cases v with
    | absent | null => cases object
    | _ => rfl
  rw [looselyEqual, given a object, given b object', object, object']
  rfl

theorem number_or_string (absent : a ≠ .absent) (null : a ≠ .null) (bool : ∀ t, a ≠ .bool t)
    (plain : a.isObject = false) : (∃ n, a = .number n) ∨ ∃ s, a = .string s := by
  cases a with
  | absent => exact absurd rfl absent
  | null => exact absurd rfl null
  | bool t => exact absurd rfl (bool t)
  | number n => exact Or.inl ⟨n, rfl⟩
  | string s => exact Or.inr ⟨s, rfl⟩
  | list | map | callable => cases plain

/-- How many conversions a value may still need. -/
def conversions : Value → Nat
  | .bool _ | .list _ | .map _ | .callable _ => 1
  | _ => 0

theorem conversions_of_isObject (object : a.isObject) : a.conversions = 1 := by
  cases a with
  | list | map | callable => rfl
  | _ => cases object

/-- Loose equality with one side converted at a time. -/
def equalByConversion (a b : Value) : Bool :=
  match a, b with
  | .absent, .absent | .absent, .null | .null, .absent | .null, .null => true
  | .absent, _ | .null, _ | _, .absent | _, .null => false
  | .number m, .number n => m.equal n
  | .string s, .string t => s == t
  | .bool s, .bool t => s == t
  | .number n, .string s | .string s, .number n => n.equal (Numeral.read s.toList)
  | .bool t, b => equalByConversion (.number (.ofNat t.toNat)) b
  | a, .bool t => equalByConversion a (.number (.ofNat t.toNat))
  | a, b =>
    if isObject a && isObject b then a.same b
    else if isObject a then equalByConversion (.string a.text) b
    else if isObject b then equalByConversion a (.string b.text)
    else false
termination_by a.conversions + b.conversions
decreasing_by
  · exact Nat.add_lt_add_right Nat.one_pos _
  · exact Nat.add_lt_add_left Nat.one_pos _
  · next object =>
    rw [conversions_of_isObject object]
    exact Nat.add_lt_add_right Nat.one_pos _
  · next object =>
    rw [conversions_of_isObject object]
    exact Nat.add_lt_add_left Nat.one_pos _

/-- It makes no difference that both sides are converted at once. -/
theorem equalByConversion_eq (a b : Value) : a.equalByConversion b = a.looselyEqual b := by
  fun_induction equalByConversion a b with
  | case1 | case2 | case3 | case4 => rfl
  | case5 b absent null | case6 b absent null | case7 b absent null | case8 b absent null =>
    cases b with
    | absent => exact (absent rfl).elim
    | null => exact (null rfl).elim
    | _ => rfl
  | case9 | case12 | case13 => rfl
  | case10 s t =>
    show (s == t) = (s.toList == t.toList)
    rw [Bool.eq_iff_iff, beq_iff_eq, beq_iff_eq, String.toList_inj]
  | case11 s t => cases s <;> cases t <;> decide +kernel
  | case14 t b _ _ _ ih => rw [ih, looselyEqual_bool]
  | case15 a t _ _ _ ih => rw [ih, looselyEqual_comm, ← looselyEqual_bool, looselyEqual_comm]
  | case16 a b _ _ _ _ _ _ _ _ _ _ _ _ _ _ _ objects =>
    have objects := Bool.and_eq_true_iff.mp objects
    exact (looselyEqual_of_objects objects.1 objects.2).symm
  | case17 a b _ _ _ _ _ _ _ _ _ _ _ _ _ _ _ apart object ih =>
    rw [object, Bool.true_and, Bool.not_eq_true] at apart
    rw [ih, looselyEqual_of_isObject object apart]
  | case18 a b _ _ _ _ _ _ _ _ _ _ _ _ _ _ _ _ plain object ih =>
    rw [ih, looselyEqual_comm, ← looselyEqual_of_isObject object (Bool.not_eq_true _ ▸ plain), looselyEqual_comm]
  | case19 a b _ _ _ _ absent null absent' null' numbers strings _ mixed mixed' bool bool' _ plain plain' =>
    rw [Bool.not_eq_true] at plain plain'
    obtain ⟨m, rfl⟩ | ⟨s, rfl⟩ := number_or_string absent null bool plain
    all_goals obtain ⟨n, rfl⟩ | ⟨t, rfl⟩ := number_or_string absent' null' bool' plain'
    · exact (numbers _ _ rfl rfl).elim
    · exact (mixed _ _ rfl rfl).elim
    · exact (mixed' _ _ rfl rfl).elim
    · exact (strings _ _ rfl rfl).elim

/-! ## Taking out and putting in -/

variable {x : Value}

theorem any_minus (items : List Value) (x : Value) :
    (items.filter fun item => !item.looselyEqual x).any (fun item => item.strictlyEqual x) = false := by
  rw [List.any_filter, List.any_eq_false]
  intro item _ found
  obtain ⟨kept, equal⟩ := Bool.and_eq_true_iff.mp found
  rw [looselyEqual_of_strictlyEqual equal] at kept
  cases kept

theorem strictlyEqual_self (distinct : x ≠ .number .nan) : x.strictlyEqual x :=
  strictlyEqual_iff.mpr ⟨same_refl x, distinct⟩

theorem spliced_of_ne_list (single : ∀ items, x ≠ .list items) : x.spliced = [x] := by
  cases x with
  | list items => exact absurd rfl (single items)
  | _ => rfl

/-- Loose and strict equality are symmetric and the strict one implies the loose and the structural one. An item
that is taken out of a list is not in it. One that equals itself is in the list that it is put in front of, and, if
it is no list itself, in the one that it is put behind, from which it can be taken out again. -/
theorem equalities_cohere :
    (∀ a b : Value, a.looselyEqual b = b.looselyEqual a) ∧
      (∀ a b : Value, a.strictlyEqual b = b.strictlyEqual a) ∧
      (∀ a b : Value, a.strictlyEqual b → a.same b ∧ a.looselyEqual b) ∧
      ∀ (items : List Value) (x : Value),
        x.isIn ((Value.list items).minus x) = .bool false ∧
          (x ≠ .number .nan → x.isIn (x.prepend (.list items)) = .bool true ∧
            ((∀ others, x ≠ .list others) →
              x.isIn ((Value.list items).extend x) = .bool true ∧
                ((Value.list items).extend x).minus x = (Value.list items).minus x)) := by
  refine ⟨looselyEqual_comm, strictlyEqual_comm,
    fun a b equal => ⟨(strictlyEqual_iff.mp equal).1, looselyEqual_of_strictlyEqual equal⟩, fun items x => ?_⟩
  refine ⟨congrArg Value.bool (any_minus items x), fun distinct => ⟨?_, fun single => ?_⟩⟩
  · exact congrArg Value.bool (List.any_eq_true.mpr ⟨x, List.mem_cons_self, strictlyEqual_self distinct⟩)
  · have behind : (Value.list items).extend x = .list (items ++ [x]) :=
      congrArg (fun more => Value.list (items ++ more)) (spliced_of_ne_list single)
    rw [behind]
    constructor
    · have member : x ∈ items ++ [x] := List.mem_append_right _ List.mem_cons_self
      exact congrArg Value.bool (List.any_eq_true.mpr ⟨x, member, strictlyEqual_self distinct⟩)
    · rw [minus, minus, List.filter_append, List.filter_singleton, looselyEqual_self distinct]
      simp

/-- The numeral in the list is loosely equal to the number, and not strictly. -/
theorem equalities_cohere_numeral :
    strictlyEqual (.number (.zero false)) (.number (.zero true)) ∧
      same (.number (.zero false)) (.number (.zero true)) ∧
      looselyEqual (.number (.zero false)) (.number (.zero true)) ∧
      isIn (.number (.zero true)) (prepend (.number (.zero true)) (.list [.number .nan, .string "0"])) = .bool true ∧
      isIn (.number (.zero true)) (extend (.list [.number .nan, .string "0"]) (.number (.zero true))) =
        .bool true ∧
      minus (extend (.list [.number .nan, .string "0"]) (.number (.zero true))) (.number (.zero true)) =
        minus (.list [.number .nan, .string "0"]) (.number (.zero true)) := by
  obtain ⟨_, _, implies, changes⟩ := equalities_cohere
  obtain ⟨_, puts⟩ := changes [.number .nan, .string "0"] (.number (.zero true))
  have distinct : Value.number (.zero true) ≠ .number .nan := by simp [Binary64.zero]
  have single : ∀ items, Value.number (.zero true) ≠ .list items := by simp
  obtain ⟨before, behind⟩ := puts distinct
  obtain ⟨equal, loose⟩ := implies (.number (.zero false)) (.number (.zero true)) rfl
  exact ⟨rfl, equal, loose, before, behind single⟩

end Value

end Formula
