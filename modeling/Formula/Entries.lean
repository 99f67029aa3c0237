/-!
# Entries

Keyed entries in a fixed order. Where a key is bound twice the later binding hides the earlier one.
-/

namespace Formula

abbrev Entries (α : Type) :=
  List (String × α)

namespace Entries

variable {α : Type}

def hasKey (key : String) : Entries α → Bool
  | [] => false
  | (k, _) :: rest => k == key || hasKey key rest

/-- The binding of `key` that is not hidden. -/
def lookup? (key : String) : Entries α → Option α
  | [] => none
  | (k, value) :: rest => (lookup? key rest).or (if k = key then some value else none)

/-- Changes the binding of `key` in its place, or adds one at the end. -/
def set (key : String) (value : α) : Entries α → Entries α
  | [] => [(key, value)]
  | (k, old) :: rest =>
    if k = key ∧ hasKey key rest = false then (k, value) :: rest else (k, old) :: set key value rest

theorem lookup?_isSome (key : String) (entries : Entries α) :
    (lookup? key entries).isSome = hasKey key entries := by
  induction entries with
  | nil => rfl
  | cons entry rest ih => by_cases equal : entry.1 = key <;> simp [lookup?, hasKey, equal, ih]

theorem lookup?_eq_none {key : String} {entries : Entries α} (missing : hasKey key entries = false) :
    lookup? key entries = none := by
  rw [← lookup?_isSome] at missing
  simpa using missing

theorem lookup?_set_self (key : String) (value : α) (entries : Entries α) :
    lookup? key (set key value entries) = some value := by
  fun_induction set key value entries with
  | case1 => simp [lookup?]
  | case2 k old rest here => simp [lookup?, lookup?_eq_none here.2, here.1]
  | case3 k old rest there ih => simp [lookup?, ih]

theorem lookup?_set_of_ne {key other : String} (differ : key ≠ other) (value : α)
    (entries : Entries α) : lookup? other (set key value entries) = lookup? other entries := by
  fun_induction set key value entries with
  | case1 => simp [lookup?, differ]
  | case2 k old rest here => simp [lookup?, here.1, differ]
  | case3 k old rest there ih => simp [lookup?, ih]

end Entries

end Formula
