import Mathlib.Data.List.Forall2
import Formula.Value.Equality

/-!
# Structural equality

Values are the same if they are of one kind and their parts are the same: numbers at one place of the line, lists
item by item, maps key by key. This is an equivalence relation.
-/

namespace Formula

open List (Forall₂)

/-! ## Places -/

namespace Binary64

theorem of_signed_eq {negative negative' : Bool} {units units' : Nat}
    (same : signed negative units = signed negative' units') :
    units = units' ∧ (negative = negative' ∨ units = 0) := by
  cases negative <;> cases negative' <;> simp [signed] at same ⊢ <;> omega

theorem place?_eq_none {n : Binary64} : n.place? = none ↔ n = .nan := by
  cases n <;> simp only [place?, reduceCtorEq]

theorem isNaN_iff {n : Binary64} : n.isNaN ↔ n = .nan := by
  cases n <;> simp only [isNaN, Bool.false_eq_true, reduceCtorEq]

theorem place?_infinity_ne (negative negative' : Bool) {units : Nat} (representable : Representable units) :
    (infinity negative).place? ≠ (finite negative' units representable).place? := by
  intro place
  have units := (of_signed_eq (Option.some.inj place)).1
  have below := Nat.lt_of_lt_of_le Nat.lt_log2_self (Nat.pow_le_pow_right Nat.two_pos representable.2)
  exact Nat.ne_of_gt below units

/-- Only the zeros share a place. -/
theorem eq_or_isZero_of_place? {m n : Binary64} (place : m.place? = n.place?) :
    m = n ∨ m.isZero ∧ n.isZero := by
  cases m with
  | nan => exact Or.inl (place?_eq_none.mp place.symm).symm
  | infinity negative =>
    cases n with
    | nan => cases place
    | infinity negative' =>
      rcases (of_signed_eq (Option.some.inj place)).2 with rfl | zero
      · exact Or.inl rfl
      · exact absurd zero (Nat.ne_of_gt (Nat.two_pow_pos 2098))
    | finite negative' units' representable' => exact absurd place (place?_infinity_ne _ _ representable')
  | finite negative units representable =>
    cases n with
    | nan => cases place
    | infinity negative' => exact absurd place.symm (place?_infinity_ne _ _ representable)
    | finite negative' units' representable' =>
      obtain ⟨rfl, rfl | rfl⟩ := of_signed_eq (Option.some.inj place)
      · exact Or.inl rfl
      · exact Or.inr ⟨rfl, rfl⟩

theorem isZero_iff {n : Binary64} : n.isZero ↔ n.place? = some 0 := by
  constructor
  · intro zero
    cases n with
    | nan | infinity => cases zero
    | finite negative units representable =>
      obtain rfl : units = 0 := beq_iff_eq.mp zero
      cases negative <;> rfl
  · intro place
    have zero : (Binary64.zero false).place? = some 0 := rfl
    rcases eq_or_isZero_of_place? (place.trans zero.symm) with rfl | both
    · rfl
    · exact both.1

theorem equal_iff {m n : Binary64} : m.equal n ↔ m ≠ .nan ∧ m.place? = n.place? := by
  rw [equal, compare?, Ne, ← place?_eq_none]
  cases m.place? <;> cases n.place? <;> simp

/-- Numbers are at one place if they are equal or both NaN. -/
theorem place?_eq_iff {m n : Binary64} :
    m.place? = n.place? ↔ (m.equal n || (m.isNaN && n.isNaN)) := by
  rw [Bool.or_eq_true, Bool.and_eq_true, equal_iff, isNaN_iff, isNaN_iff]
  constructor
  · intro place
    by_cases none : m = .nan
    · rw [none] at place ⊢
      exact Or.inr ⟨rfl, place?_eq_none.mp place.symm⟩
    · exact Or.inl ⟨none, place⟩
  · rintro (⟨_, place⟩ | ⟨rfl, rfl⟩)
    · exact place
    · rfl

theorem equal_self {n : Binary64} (number : n ≠ .nan) : n.equal n :=
  equal_iff.mpr ⟨number, rfl⟩

theorem zero_equal {n : Binary64} (none : n.isZero) : (zero false).equal n :=
  equal_iff.mpr ⟨nofun, (isZero_iff.mp none).symm⟩

end Binary64

/-! ## Bindings -/

namespace Entries

variable {α β : Type} {key : String}

theorem hasKey_iff {entries : Entries α} : hasKey key entries ↔ ∃ entry ∈ entries, entry.1 = key := by
  induction entries with
  | nil => simp [hasKey]
  | cons first rest ih => simp [hasKey, ih]

theorem mem_of_lookup? {entries : Entries α} {value : α} (found : lookup? key entries = some value) :
    (key, value) ∈ entries := by
  induction entries with
  | nil => cases found
  | cons entry rest ih =>
    rw [lookup?, Option.or_eq_some_iff] at found
    rcases found with later | ⟨_, here⟩
    · exact List.mem_cons_of_mem _ (ih later)
    · obtain ⟨rfl, same⟩ := Option.ite_none_right_eq_some.mp here
      rw [← Option.some.inj same]
      exact List.mem_cons_self

/-- Where no key is bound twice, all bindings are seen. -/
theorem lookup?_eq_some_iff {entries : Entries α} (distinct : (entries.map Prod.fst).Nodup) {value : α} :
    lookup? key entries = some value ↔ (key, value) ∈ entries := by
  refine ⟨mem_of_lookup?, fun member => ?_⟩
  induction entries with
  | nil => cases member
  | cons entry rest ih =>
    rw [List.map_cons, List.nodup_cons] at distinct
    rw [lookup?, Option.or_eq_some_iff]
    rcases List.mem_cons.mp member with rfl | later
    · refine Or.inr ⟨?_, if_pos rfl⟩
      refine lookup?_eq_none (Bool.eq_false_iff.mpr fun bound => distinct.1 ?_)
      obtain ⟨other, listed, same⟩ := hasKey_iff.mp bound
      exact List.mem_map.mpr ⟨other, listed, same⟩
    · exact Or.inl (ih distinct.2 later)

theorem lookup?_perm {entries others : Entries α} (reordered : entries.Perm others)
    (distinct : (entries.map Prod.fst).Nodup) (key : String) : lookup? key entries = lookup? key others := by
  have distinct' : (others.map Prod.fst).Nodup := (reordered.map Prod.fst).nodup_iff.mp distinct
  refine Option.ext fun value => ?_
  rw [lookup?_eq_some_iff distinct, lookup?_eq_some_iff distinct', reordered.mem_iff]

/-- Entries with the same keys in the same order have related bindings. -/
theorem lookup?_of_forall₂ {R : α → β → Prop} {entries : Entries α} {others : Entries β}
    (alike : Forall₂ (fun a b => a.1 = b.1 ∧ R a.2 b.2) entries others) (key : String) :
    Option.Rel R (lookup? key entries) (lookup? key others) := by
  induction alike with
  | nil => exact .none
  | @cons first other _ _ same _ ih =>
    rw [lookup?, lookup?, same.1]
    generalize lookup? key _ = here at ih
    generalize lookup? key _ = there at ih
    cases ih with
    | some related => exact .some related
    | none =>
      rw [Option.none_or, Option.none_or]
      split
      · exact .some same.2
      · exact .none

section

variable {R : α → α → Prop} {entries others more : Entries α}

theorem rel_symm (each : ∀ key, Option.Rel R (lookup? key entries) (lookup? key others))
    (symm : ∀ entry ∈ entries, ∀ b, R entry.2 b → R b entry.2) (key : String) :
    Option.Rel R (lookup? key others) (lookup? key entries) := by
  have related := each key
  cases found : lookup? key entries <;> cases found' : lookup? key others <;> rw [found, found'] at related
  · exact .none
  · cases related
  · cases related
  · exact .some (symm _ (mem_of_lookup? found) _ (Option.rel_some_some.mp related))

theorem rel_trans (first : ∀ key, Option.Rel R (lookup? key entries) (lookup? key others))
    (second : ∀ key, Option.Rel R (lookup? key others) (lookup? key more))
    (trans : ∀ entry ∈ entries, ∀ b c, R entry.2 b → R b c → R entry.2 c) (key : String) :
    Option.Rel R (lookup? key entries) (lookup? key more) := by
  have related := first key
  have related' := second key
  cases found : lookup? key entries <;> cases found' : lookup? key others <;> rw [found, found'] at related
  · rwa [found'] at related'
  · cases related
  · cases related
  · rw [found'] at related'
    generalize lookup? key more = last at related' ⊢
    cases related' with
    | some later =>
      exact .some (trans _ (mem_of_lookup? found) _ _ (Option.rel_some_some.mp related) later)

end

end Entries

/-! ## Values by their parts -/

namespace Value

/-- What holds of a value if it holds of its items or entries holds of all values. -/
@[elab_as_elim]
theorem induction {P : Value → Prop} (absent : P .absent) (null : P .null) (bool : ∀ b, P (.bool b))
    (number : ∀ n, P (.number n)) (string : ∀ s, P (.string s))
    (list : ∀ items, (∀ item ∈ items, P item) → P (.list items))
    (map : ∀ entries, (∀ entry ∈ entries, P entry.2) → P (.map entries))
    (callable : ∀ f, P (.callable f)) (v : Value) : P v :=
  @rec P (fun items => ∀ item ∈ items, P item) (fun entries => ∀ entry ∈ entries, P entry.2)
    (fun entry => P entry.2) absent null bool number string list map callable (List.forall_mem_nil _)
    (fun _ _ first others => List.forall_mem_cons.mpr ⟨first, others⟩) (List.forall_mem_nil _)
    (fun _ _ first others => List.forall_mem_cons.mpr ⟨first, others⟩) (fun _ _ value => value) v

/-- Values of one kind whose parts are the same. -/
inductive SameParts : Value → Value → Prop
  | absent : SameParts .absent .absent
  | null : SameParts .null .null
  | bool (b : Bool) : SameParts (.bool b) (.bool b)
  | number {m n : Binary64} (place : m.place? = n.place?) : SameParts (.number m) (.number n)
  | string (s : String) : SameParts (.string s) (.string s)
  | list {items others : List Value} (each : Forall₂ (fun a b => a.same b) items others) :
      SameParts (.list items) (.list others)
  | map {entries others : Entries Value}
      (each : ∀ key, Option.Rel (fun a b => a.same b) (Entries.lookup? key entries) (Entries.lookup? key others)) :
      SameParts (.map entries) (.map others)
  | callable (f : Callable) : SameParts (.callable f) (.callable f)

theorem sameItems_iff {items others : List Value} :
    sameItems items others ↔ Forall₂ (fun a b => a.same b) items others := by
  induction items generalizing others with
  | nil => cases others <;> simp [sameItems]
  | cons item rest ih => cases others <;> simp [sameItems, ih]

theorem sameBindings_iff {entries others : Entries Value} :
    sameBindings entries others ↔ ∀ key a, Entries.lookup? key entries = some a →
      ∃ b, Entries.lookup? key others = some b ∧ a.same b := by
  induction entries with
  | nil => simp [sameBindings, Entries.lookup?]
  | cons entry rest ih =>
    obtain ⟨name, value⟩ := entry
    rw [sameBindings, Bool.and_eq_true, Bool.or_eq_true, ih]
    constructor
    · rintro ⟨here, later⟩ key a found
      rw [Entries.lookup?, Option.or_eq_some_iff] at found
      rcases found with found | ⟨missing, bound⟩
      · exact later key a found
      obtain ⟨rfl, same⟩ := Option.ite_none_right_eq_some.mp bound
      obtain rfl := Option.some.inj same
      rw [← Entries.lookup?_isSome, missing] at here
      have related := here.resolve_left Bool.false_ne_true
      split at related
      · next b found => exact ⟨b, found, related⟩
      · cases related
    · intro bound
      refine ⟨?_, fun key a found => bound key a ?_⟩
      · cases hidden : Entries.hasKey name rest with
        | true => exact Or.inl rfl
        | false =>
          have seen : Entries.lookup? name ((name, value) :: rest) = some value := by
            rw [Entries.lookup?, Entries.lookup?_eq_none hidden, if_pos rfl, Option.none_or]
          obtain ⟨b, found, same⟩ := bound name value seen
          rw [found]
          exact Or.inr same
      · rw [Entries.lookup?, found, Option.some_or]

theorem optionRel_iff {α β : Type} {R : α → β → Prop} {x : Option α} {y : Option β} :
    Option.Rel R x y ↔ (∀ a, x = some a → ∃ b, y = some b ∧ R a b) ∧ (y.isSome → x.isSome) := by
  constructor
  · rintro (related | _)
    · refine ⟨?_, fun _ => rfl⟩
      rintro _ ⟨rfl⟩
      exact ⟨_, rfl, related⟩
    · exact ⟨nofun, nofun⟩
  · rintro ⟨bound, within⟩
    cases x with
    | some a =>
      obtain ⟨b, rfl, related⟩ := bound a rfl
      exact .some related
    | none =>
      cases y with
      | some b => cases within rfl
      | none => exact .none

theorem same_map_iff {entries others : Entries Value} :
    same (.map entries) (.map others) ↔ ∀ key,
      Option.Rel (fun a b => a.same b) (Entries.lookup? key entries) (Entries.lookup? key others) := by
  have keys : (others.all fun entry => Entries.hasKey entry.1 entries) = true ↔
      ∀ key, (Entries.lookup? key others).isSome → (Entries.lookup? key entries).isSome := by
    simp only [List.all_eq_true, Entries.lookup?_isSome, @Entries.hasKey_iff _ _ others]
    constructor
    · rintro bound _ ⟨entry, listed, rfl⟩
      exact bound entry listed
    · exact fun bound entry listed => bound _ ⟨entry, listed, rfl⟩
  rw [same, Bool.and_eq_true, sameBindings_iff, keys, ← forall_and]
  exact forall_congr' fun key => optionRel_iff.symm

theorem same_iff {a b : Value} : a.same b ↔ SameParts a b := by
  constructor
  · intro alike
    unfold same at alike
    split at alike
    · exact .absent
    · exact .null
    · rw [beq_iff_eq.mp alike]
      exact .bool _
    · exact .number (Binary64.place?_eq_iff.mpr alike)
    · rw [beq_iff_eq.mp alike]
      exact .string _
    · exact .list (sameItems_iff.mp alike)
    · exact .map (same_map_iff.mp (by rwa [same]))
    · rw [beq_iff_eq.mp alike]
      exact .callable _
    · cases alike
  · intro parts
    cases parts with
    | absent | null => rfl
    | bool | string | callable => exact beq_self_eq_true _
    | number place => exact Binary64.place?_eq_iff.mp place
    | list each => exact sameItems_iff.mpr each
    | map each => exact same_map_iff.mpr each

/-! ## An equivalence -/

theorem same_refl (v : Value) : v.same v := by
  rw [same_iff]
  induction v using induction with
  | absent => exact .absent
  | null => exact .null
  | bool b => exact .bool b
  | number n => exact .number rfl
  | string s => exact .string s
  | list items ih => exact .list (List.forall₂_same.mpr fun item listed => same_iff.mpr (ih item listed))
  | map entries ih =>
    refine .map fun key => ?_
    cases found : Entries.lookup? key entries with
    | none => exact .none
    | some value => exact .some (same_iff.mpr (ih (key, value) (Entries.mem_of_lookup? found)))
  | callable f => exact .callable f

theorem same_symm {a b : Value} (alike : a.same b) : b.same a := by
  rw [same_iff] at alike ⊢
  induction a using induction generalizing b with
  | list items ih =>
    cases alike with
    | list each =>
      have both := (List.forall₂_and_left _ _).mpr ⟨ih, each⟩
      exact .list (both.imp fun a b same => same_iff.mpr (same.1 (same_iff.mp same.2))).flip
  | map entries ih =>
    cases alike with
    | map each =>
      refine .map (Entries.rel_symm each fun entry listed b same => ?_)
      exact same_iff.mpr (ih entry listed (same_iff.mp same))
  | number n =>
    cases alike with
    | number place => exact .number place.symm
  | absent | null | bool | string | callable =>
    cases alike
    constructor

theorem forall₂_trans_of_mem {α : Type} {R : α → α → Prop} {as bs cs : List α} (first : Forall₂ R as bs)
    (second : Forall₂ R bs cs) (trans : ∀ a ∈ as, ∀ b c, R a b → R b c → R a c) : Forall₂ R as cs := by
  induction first generalizing cs with
  | nil => exact second
  | cons ab _ ih =>
    obtain ⟨here, later⟩ := List.forall_mem_cons.mp trans
    cases second with
    | cons bc rest => exact .cons (here _ _ ab bc) (ih rest later)

theorem same_trans {a b c : Value} (first : a.same b) (second : b.same c) : a.same c := by
  rw [same_iff] at first second ⊢
  induction a using induction generalizing b c with
  | list items ih =>
    cases first with
    | list each =>
    cases second with
    | list each' =>
      refine .list (forall₂_trans_of_mem each each' fun item listed b c same same' => ?_)
      exact same_iff.mpr (ih item listed (same_iff.mp same) (same_iff.mp same'))
  | map entries ih =>
    cases first with
    | map each =>
    cases second with
    | map each' =>
      refine .map (Entries.rel_trans each each' fun entry listed b c same same' => ?_)
      exact same_iff.mpr (ih entry listed (same_iff.mp same) (same_iff.mp same'))
  | number n =>
    cases first with
    | number place =>
    cases second with
    | number place' => exact .number (place.trans place')
  | absent | null | bool | string | callable =>
    cases first
    exact second

theorem same_comm (a b : Value) : a.same b = b.same a :=
  Bool.eq_iff_iff.mpr ⟨same_symm, same_symm⟩

theorem same_congr {a b : Value} (alike : a.same b) (c : Value) : a.same c = b.same c :=
  Bool.eq_iff_iff.mpr ⟨same_trans (same_symm alike), same_trans alike⟩

/-- Maps with the same entries in any order are the same, if no key is bound twice. -/
theorem same_map_perm {entries others : Entries Value} (reordered : entries.Perm others)
    (distinct : (entries.map Prod.fst).Nodup) : same (.map entries) (.map others) := by
  refine same_map_iff.mpr fun key => ?_
  rw [← Entries.lookup?_perm reordered distinct]
  exact same_map_iff.mp (same_refl (.map entries)) key

end Value

end Formula
