import Formula.Proofs.Congruence
import Formula.Proofs.Numerals

/-!
# Written numbers

The written form of a number keeps all of it but the sign of zero. It is a literal of the number, and tells it apart
from all numbers that are not equal to it.
-/

namespace Formula.Numeral

open Binary64

variable {m n : Binary64}

theorem read_write_eq (n : Binary64) : read (write n) = if n.isZero then .zero false else n := by
  split
  · next none =>
    rw [write_of_isZero none]
    rfl
  · next some =>
    by_cases number : n = .nan
    · rw [number]
      exact read_write_nan
    · refine read_write number ?_
      rintro rfl
      exact some rfl

theorem place?_read_write (n : Binary64) : (read (write n)).place? = n.place? := by
  rw [read_write_eq]
  split
  · next none => exact (isZero_iff.mp none).symm
  · rfl

/-- Only numbers at one place of the line are written alike. -/
theorem write_eq_write_iff : write m = write n ↔ m.place? = n.place? := by
  refine ⟨fun same => ?_, write_congr⟩
  rw [← place?_read_write m, same, place?_read_write]

theorem write_read_write (n : Binary64) : write (read (write n)) = write n :=
  write_congr (place?_read_write n)

/-- The written form of a number is text that stands for a number. -/
theorem ofUnquoted_write (number : n ≠ .nan) : Value.ofUnquoted (write n) = .number (read (write n)) := by
  have numeric : read (write n) ≠ .nan := by
    rwa [Ne, ← place?_eq_none, place?_read_write, place?_eq_none]
  have written := Value.ofUnquoted_of_read numeric (by rw [write_read_write])
  rwa [write_read_write] at written

/-- A number is read back from its written form, except that zero loses its sign. The written form of a number is an
operand that is equal to it, and numbers are written alike if and only if they are equal or both NaN. -/
theorem write_faithful (n : Binary64) :
    read (write n) = (if n.isZero then .zero false else n) ∧
      (n ≠ .nan → ∃ m, Value.ofUnquoted (write n) = .number m ∧ m.equal n) ∧
      ∀ m, write m = write n ↔ m.equal n ∨ m = .nan ∧ n = .nan := by
  refine ⟨read_write_eq n, fun number => ⟨_, ofUnquoted_write number, ?_⟩, fun m => ?_⟩
  · rw [equal_iff, Ne, ← place?_eq_none, place?_read_write, place?_eq_none]
    exact ⟨number, rfl⟩
  · rw [write_eq_write_iff, place?_eq_iff, Bool.or_eq_true, Bool.and_eq_true, isNaN_iff, isNaN_iff]

theorem write_faithful_negative_zero :
    zero true ≠ .nan ∧ write (zero true) = "0".toList ∧ read (write (zero true)) = zero false ∧
      (∃ m, Value.ofUnquoted (write (zero true)) = .number m ∧ m.equal (zero true)) ∧
      write .nan ≠ write (zero true) := by
  have number : zero true ≠ .nan := nofun
  obtain ⟨back, operand, apart⟩ := write_faithful (zero true)
  refine ⟨number, rfl, back, operand number, fun same => ?_⟩
  rcases (apart .nan).mp same with equal | ⟨_, other⟩
  · cases equal
  · exact number other

end Formula.Numeral
