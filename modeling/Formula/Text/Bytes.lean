/-!
# Byte positions

Positions in a text count the bytes of its UTF-8 form.
-/

namespace Formula

/-- The bytes that the characters take. -/
def byteLength : List Char → Nat
  | [] => 0
  | c :: rest => c.utf8Size + byteLength rest

/-- What follows the first `bytes` bytes; nothing if they end inside a character or past the end. -/
def dropBytes? : Nat → List Char → Option (List Char)
  | 0, text => some text
  | _ + 1, [] => none
  | bytes + 1, c :: rest =>
    if c.utf8Size ≤ bytes + 1 then dropBytes? (bytes + 1 - c.utf8Size) rest else none

@[simp] theorem byteLength_append (a b : List Char) : byteLength (a ++ b) = byteLength a + byteLength b := by
  induction a with
  | nil => simp [byteLength]
  | cons c rest ih => simp only [List.cons_append, byteLength, ih, Nat.add_assoc]

@[simp] theorem byteLength_reverse (text : List Char) : byteLength text.reverse = byteLength text := by
  induction text with
  | nil => rfl
  | cons c rest ih =>
    rw [List.reverse_cons, byteLength_append, ih, Nat.add_comm]
    rfl

theorem dropBytes?_append (a b : List Char) : dropBytes? (byteLength a) (a ++ b) = some b := by
  induction a with
  | nil => simp [byteLength, dropBytes?]
  | cons c rest ih =>
    have positive := c.utf8Size_pos
    obtain ⟨bytes, total⟩ : ∃ bytes, c.utf8Size + byteLength rest = bytes + 1 :=
      ⟨c.utf8Size + byteLength rest - 1, by omega⟩
    rw [byteLength, total, List.cons_append, dropBytes?, if_pos (by omega), ← total,
      Nat.add_sub_cancel_left, ih]

theorem eq_append_of_dropBytes? {bytes : Nat} {text rest : List Char}
    (found : dropBytes? bytes text = some rest) :
    ∃ before, text = before ++ rest ∧ byteLength before = bytes := by
  fun_induction dropBytes? bytes text with
  | case1 => exact ⟨[], by simpa using found, rfl⟩
  | case2 => simp at found
  | case3 bytes c tail within ih =>
    obtain ⟨before, split, length⟩ := ih found
    refine ⟨c :: before, by rw [split, List.cons_append], ?_⟩
    rw [byteLength, length]
    omega
  | case4 => simp at found

end Formula
