import Formula.Proofs.Lexing
import Formula.Proofs.Sameness
import Formula.Value.Json

/-!
# What JSON keeps of a value

A value that is converted to JSON and back is in normal form. It is made of what JSON has, and nothing is lost when it
is converted again.
-/

namespace Formula

theorem Entries.lookup?_map {α β : Type} (f : α → β) (key : String) (entries : Entries α) :
    lookup? key (entries.map fun entry => (entry.1, f entry.2)) = (lookup? key entries).map f := by
  induction entries with
  | nil => rfl
  | cons entry rest ih =>
    rw [List.map_cons, lookup?, lookup?, ih, Option.map_or]
    congr 1
    split <;> rfl

/-! ## Numbers -/

namespace Binary64

variable {n : Binary64} {i : Int}

/-- A whole number is what its integer is rounded to, but for the sign of zero. -/
theorem round_of_toInt? (whole : n.toInt? = some i) :
    round (decide (i < 0)) (i.natAbs * unitsPerOne) 1 = if n.isZero then zero false else n := by
  obtain ⟨negative, k, representable, rfl, rfl⟩ := exists_of_toInt? whole
  rw [natAbs_signed]
  by_cases none : k = 0
  · have zero : (finite negative (k * unitsPerOne) representable).isZero = true := by
      rw [isZero, none, Nat.zero_mul]
      rfl
    rw [zero, if_pos rfl, none, Nat.zero_mul, round_of_small (by decide)]
    cases negative <;> rfl
  · have exact := round_of_representable representable Nat.one_pos negative
    have some : (finite negative (k * unitsPerOne) representable).isZero = false :=
      beq_false_of_ne (mul_unitsPerOne_ne_zero none)
    rw [Nat.mul_one] at exact
    rw [signed_neg_iff none, exact, some, if_neg Bool.false_ne_true]

theorem toInt?_of_isZero (none : n.isZero) : n.toInt? = some 0 := by
  cases n with
  | nan | infinity => cases none
  | finite negative units representable =>
    rw [toInt?, beq_iff_eq.mp none, if_pos (Nat.zero_mod _), Nat.zero_div]
    cases negative <;> rfl

end Binary64

namespace Json

/-- A number of a JSON value, kept as an integer of 64 bits where it is one. -/
inductive Numeric where
  | integer (i : Int64)
  | double (n : Binary64)

namespace Numeric

def ofFinite? (n : Binary64) : Option Numeric :=
  if n.isFinite then some (.double n) else none

/-- Whole numbers become integers up to the greatest below which none is missing. -/
def ofNumber? (n : Binary64) : Option Numeric :=
  match n.toInt? with
  | some i => if i.natAbs ≤ greatestExact then some (.integer (.ofInt i)) else ofFinite? n
  | none => ofFinite? n

def toNumber : Numeric → Binary64
  | .integer i => .round (decide (i.toInt < 0)) (i.toInt.natAbs * Binary64.unitsPerOne) 1
  | .double n => n

theorem toNumber_integer {i : Int} (small : i.natAbs ≤ greatestExact) :
    (Numeric.integer (.ofInt i)).toNumber = .round (decide (i < 0)) (i.natAbs * Binary64.unitsPerOne) 1 := by
  have within : (Int64.ofInt i).toInt = i := by
    unfold greatestExact at small
    exact Int64.toInt_ofInt_of_le (by omega) (by omega)
  rw [toNumber, within]

end Numeric

end Json

namespace Value

/-- Numbers lose nothing on their way through integers but the sign of zero. -/
theorem numberToJson_eq (n : Binary64) :
    numberToJson n = ((Json.Numeric.ofNumber? n).map fun k => Json.number k.toNumber).getD .null := by
  have other : n.isZero = false →
      numberToJson n = ((Json.Numeric.ofFinite? n).map fun k => Json.number k.toNumber).getD .null := by
    intro some
    rw [numberToJson, some, if_neg Bool.false_ne_true, Json.Numeric.ofFinite?]
    split <;> rfl
  unfold Json.Numeric.ofNumber?
  cases whole : n.toInt? with
  | none =>
    refine other (Bool.eq_false_iff.mpr fun zero => ?_)
    rw [Binary64.toInt?_of_isZero zero] at whole
    cases whole
  | some i =>
    dsimp only
    split
    · next small =>
      rw [Option.map_some, Option.getD_some, Json.Numeric.toNumber_integer small, Binary64.round_of_toInt? whole]
      obtain ⟨negative, k, representable, rfl, -⟩ := Binary64.exists_of_toInt? whole
      rw [numberToJson]
      split <;> rfl
    · next large =>
      -- zero is a whole number, and not a large one
      refine other (Bool.eq_false_iff.mpr fun zero => ?_)
      rw [Binary64.toInt?_of_isZero zero, Option.some.injEq] at whole
      exact large (by rw [← whole]; exact Nat.zero_le _)

/-! ## The normal form -/

/-- Whether there is no JSON for the value. -/
def isMissing : Value → Bool
  | .absent | .callable _ => true
  | _ => false

mutual

/-- What JSON keeps: null for items without JSON and for numbers that are not finite, entries with JSON in their order,
and everything else as it is, but for the sign of zero. -/
def normal : Value → Value
  | .absent | .callable _ => .null
  | .number n => if n.isZero then .number (.zero false) else if n.isFinite then .number n else .null
  | .list items => .list (normalItems items)
  | .map entries => .map (normalEntries entries)
  | v => v

def normalItems : List Value → List Value
  | [] => []
  | item :: rest => item.normal :: normalItems rest

def normalEntries : List (String × Value) → List (String × Value)
  | [] => []
  | (key, value) :: rest => if value.isMissing then normalEntries rest else (key, value.normal) :: normalEntries rest

end

/-- Values that are made of what JSON has. -/
inductive Plain : Value → Prop
  | null : Plain .null
  | bool (b : Bool) : Plain (.bool b)
  | number {n : Binary64} (finite : n.isFinite) : Plain (.number n)
  | string (s : String) : Plain (.string s)
  | list {items : List Value} (are : ∀ item ∈ items, Plain item) : Plain (.list items)
  | map {entries : List (String × Value)} (are : ∀ entry ∈ entries, Plain entry.2) : Plain (.map entries)

variable {v : Value} {items : List Value} {entries : List (String × Value)}

theorem normalItems_eq (items : List Value) : normalItems items = items.map normal := by
  induction items with
  | nil => rfl
  | cons item rest ih => rw [normalItems, ih, List.map_cons]

theorem normalEntries_eq (entries : List (String × Value)) :
    normalEntries entries =
      (entries.filter fun entry => !entry.2.isMissing).map fun entry => (entry.1, entry.2.normal) := by
  induction entries with
  | nil => rfl
  | cons entry rest ih =>
    rw [normalEntries, ih]
    cases missing : entry.2.isMissing <;> simp [missing]

theorem toJson?_eq_none_iff : v.toJson? = none ↔ v.isMissing := by
  cases v <;> simp [toJson?, isMissing]

theorem not_isMissing {json : Json} (written : v.toJson? = some json) : ¬v.isMissing := by
  rw [← toJson?_eq_none_iff, written]
  exact nofun

theorem isMissing_iff : v.isMissing ↔ v = .absent ∨ ∃ f, v = .callable f := by
  cases v <;> simp [isMissing]

/-! ## There and back -/

theorem ofJson_numberToJson (n : Binary64) : ofJson (numberToJson n) = (Value.number n).normal := by
  rw [numberToJson, normal]
  split_ifs <;> rfl

/-- Null stands for what has no JSON. -/
theorem ofJson_getD (v : Value) : ofJson (v.toJson?.getD .null) = v.normal := by
  induction v using induction with
  | absent | null | bool | string | callable => rfl
  | number n => exact ofJson_numberToJson n
  | list items ih =>
    have each : ofItems (itemsToJson items) = normalItems items := by
      induction items with
      | nil => rfl
      | cons item rest ih' =>
        obtain ⟨first, others⟩ := List.forall_mem_cons.mp ih
        rw [itemsToJson, ofItems, normalItems, first, ih' others]
    rw [normal, ← each]
    rfl
  | map entries ih =>
    have each : ofEntries (entriesToJson entries) = normalEntries entries := by
      induction entries with
      | nil => rfl
      | cons entry rest ih' =>
        obtain ⟨first, others⟩ := List.forall_mem_cons.mp ih
        obtain ⟨key, value⟩ := entry
        rw [entriesToJson, normalEntries]
        cases written : value.toJson? with
        | none =>
          rw [if_pos (toJson?_eq_none_iff.mp written), ← ih' others]
        | some json =>
          rw [written] at first
          rw [if_neg (not_isMissing written), ← first, ← ih' others]
          rfl
    rw [normal, ← each]
    rfl

theorem toJson?_number_normal (n : Binary64) : (Value.number n).normal.toJson? = some (numberToJson n) := by
  rw [normal, numberToJson]
  split_ifs with zero finite
  · rfl
  · rw [toJson?, numberToJson, if_neg zero, if_pos finite]
  · rfl

/-- The normal form has the same JSON. -/
theorem toJson?_normal (v : Value) : v.normal.toJson? = some (v.toJson?.getD .null) := by
  induction v using induction with
  | absent | null | bool | string | callable => rfl
  | number n => exact toJson?_number_normal n
  | list items ih =>
    have each : itemsToJson (normalItems items) = itemsToJson items := by
      induction items with
      | nil => rfl
      | cons item rest ih' =>
        obtain ⟨first, others⟩ := List.forall_mem_cons.mp ih
        rw [normalItems, itemsToJson, itemsToJson, first, ih' others, Option.getD_some]
    rw [normal, toJson?, each]
    rfl
  | map entries ih =>
    have each : entriesToJson (normalEntries entries) = entriesToJson entries := by
      induction entries with
      | nil => rfl
      | cons entry rest ih' =>
        obtain ⟨first, others⟩ := List.forall_mem_cons.mp ih
        obtain ⟨key, value⟩ := entry
        rw [normalEntries, entriesToJson]
        cases written : value.toJson? with
        | none => rw [if_pos (toJson?_eq_none_iff.mp written), ih' others]
        | some json =>
          rw [if_neg (not_isMissing written), entriesToJson, first, ih' others, written]
          rfl
    rw [normal, toJson?, each]
    rfl

theorem normal_normal (v : Value) : v.normal.normal = v.normal := by
  rw [← ofJson_getD v.normal, toJson?_normal, Option.getD_some, ofJson_getD]

theorem plain_normal (v : Value) : v.normal.Plain := by
  induction v using induction with
  | absent | null | callable => exact .null
  | bool b => exact .bool b
  | string s => exact .string s
  | number n =>
    rw [normal]
    split_ifs with zero finite
    · exact .number rfl
    · exact .number finite
    · exact .null
  | list items ih =>
    rw [normal, normalItems_eq]
    exact .list (List.forall_mem_map.mpr ih)
  | map entries ih =>
    rw [normal, normalEntries_eq]
    exact .map (List.forall_mem_map.mpr fun entry listed => ih entry (List.mem_of_mem_filter listed))

theorem Plain.not_isMissing (plain : v.Plain) : v.isMissing = false := by
  cases plain <;> rfl

/-- What is made of what JSON has is its own normal form. -/
theorem Plain.same_normal (plain : v.Plain) : v.normal.same v := by
  induction plain with
  | null => rfl
  | bool | string => exact same_refl _
  | @number n finite =>
    rw [normal, if_pos finite]
    split
    · next zero => exact same_iff.mpr (.number (Binary64.isZero_iff.mp zero).symm)
    · exact same_refl _
  | @list items are ih =>
    rw [normal, normalItems_eq, same_iff]
    refine .list ?_
    rw [List.forall₂_map_left_iff, List.forall₂_same]
    exact ih
  | @map entries are ih =>
    have kept : entries.filter (fun entry => !entry.2.isMissing) = entries := by
      refine List.filter_eq_self.mpr fun entry listed => ?_
      rw [(are entry listed).not_isMissing]
      rfl
    rw [normal, normalEntries_eq, kept, same_map_iff]
    intro key
    rw [Entries.lookup?_map]
    cases found : Entries.lookup? key entries with
    | none => exact .none
    | some value => exact .some (ih _ (Entries.mem_of_lookup? found))

/-- Only absent values and callables have no JSON. All others become their normal form when they are converted to JSON
and back, and converting them once more changes nothing. What is made of what JSON has comes back equal to itself, and
numbers lose nothing on their way through integers of 64 bits. -/
theorem json_projects (v : Value) :
    (v.toJson? = none ↔ v = .absent ∨ ∃ f, v = .callable f) ∧
      (∀ json, v.toJson? = some json →
        ofJson json = v.normal ∧ v.normal.Plain ∧ v.normal.normal = v.normal ∧ (ofJson json).toJson? = some json) ∧
      (v.Plain → ∃ json, v.toJson? = some json ∧ (ofJson json).same v) ∧
      ∀ n, numberToJson n = ((Json.Numeric.ofNumber? n).map fun k => Json.number k.toNumber).getD .null := by
  have back : ∀ json, v.toJson? = some json → ofJson json = v.normal := by
    intro json written
    have same := ofJson_getD v
    rwa [written] at same
  refine ⟨toJson?_eq_none_iff.trans isMissing_iff, fun json written => ?_, fun plain => ?_, numberToJson_eq⟩
  · refine ⟨back json written, plain_normal v, normal_normal v, ?_⟩
    rw [back json written, toJson?_normal, written, Option.getD_some]
  · obtain ⟨json, written⟩ : ∃ json, v.toJson? = some json := by
      rw [← Option.isSome_iff_exists, Option.isSome_iff_ne_none, Ne, toJson?_eq_none_iff, plain.not_isMissing]
      exact Bool.false_ne_true
    refine ⟨json, written, ?_⟩
    rw [back json written]
    exact plain.same_normal

theorem json_projects_of_list :
    (∃ json, toJson? (.list [.absent, .number .nan, .map [("f", .callable ⟨"f"⟩), ("z", .number (.zero true))]]) =
        some json ∧ ofJson json = .list [.null, .null, .map [("z", .number (.zero false))]] ∧
        (ofJson json).toJson? = some json) ∧
      Plain (.list [.null, .number (.zero true)]) ∧
      ∃ json, toJson? (.list [.null, .number (.zero true)]) = some json ∧
        (ofJson json).same (.list [.null, .number (.zero true)]) := by
  have plain : Plain (.list [.null, .number (.zero true)]) := by
    refine .list ?_
    rw [List.forall_mem_cons, List.forall_mem_singleton]
    exact ⟨.null, .number rfl⟩
  obtain ⟨-, back, -⟩ :=
    json_projects (.list [.absent, .number .nan, .map [("f", .callable ⟨"f"⟩), ("z", .number (.zero true))]])
  obtain ⟨same, -, -, twice⟩ := back _ rfl
  exact ⟨⟨_, rfl, same, twice⟩, plain, (json_projects _).2.2.1 plain⟩

end Value

end Formula
