/-!
# The order of encoded text

The bytes of texts in UTF-8 are in the order of their characters. Nothing before the first character that differs
matters, and of that one the bytes of the lesser come before those of the greater, whatever follows either.
-/

namespace Formula.Utf8

/-- The bytes of a text. -/
def bytes (s : String) : List UInt8 :=
  s.toByteArray.data.toList

theorem bytes_eq (s : String) : bytes s = s.toList.flatMap String.utf8EncodeChar := by
  rw [bytes, ← String.utf8Encode_toList, List.utf8Encode, List.toList_data_toByteArray]

theorem compare_append_left (start xs ys : List UInt8) :
    compare (start ++ xs) (start ++ ys) = compare xs ys := by
  induction start with
  | nil => rfl
  | cons byte rest ih =>
    rw [List.cons_append, List.cons_append, List.compare_cons_cons, Std.compare_self, ih]
    rfl

/-- Whether bytes come before others whatever follows either. -/
def Precede (xs ys : List UInt8) : Prop :=
  ∀ more others, compare (xs ++ more) (ys ++ others) = .lt

namespace Precede

variable {xs ys : List UInt8}

theorem of_head {v w : Nat} (less : v < w) (byte : w < 256) : Precede (.ofNat v :: xs) (.ofNat w :: ys) := by
  intro more others
  have below : UInt8.ofNat v < UInt8.ofNat w := by
    rw [UInt8.lt_iff_toNat_lt, UInt8.toNat_ofNat', UInt8.toNat_ofNat', Nat.mod_eq_of_lt (by omega),
      Nat.mod_eq_of_lt byte]
    exact less
  rw [List.cons_append, List.cons_append, List.compare_cons_cons, Std.compare_eq_lt.mpr below]
  rfl

theorem append (before : Precede xs ys) (xs' ys' : List UInt8) : Precede (xs ++ xs') (ys ++ ys') := by
  intro more others
  rw [List.append_assoc, List.append_assoc]
  exact before _ _

theorem append_left (before : Precede xs ys) (start : List UInt8) : Precede (start ++ xs) (start ++ ys) := by
  intro more others
  rw [List.append_assoc, List.append_assoc, compare_append_left]
  exact before _ _

end Precede

/-! ## Characters -/

/-- What is left of a number without its last parts of six bits. -/
def leading : Nat → Nat → Nat
  | 0, v => v
  | parts + 1, v => leading parts (v / 64)

/-- The bytes of a number whose last parts of six bits are continuations. -/
def octets (mark : Nat) : Nat → Nat → List UInt8
  | 0, v => [.ofNat (v + mark)]
  | parts + 1, v => octets mark parts (v / 64) ++ [.ofNat (v % 64 + 0x80)]

theorem octets_eq_cons (mark parts v : Nat) :
    ∃ rest, octets mark parts v = .ofNat (leading parts v + mark) :: rest := by
  induction parts generalizing v with
  | zero => exact ⟨[], rfl⟩
  | succ parts ih =>
    obtain ⟨rest, first⟩ := ih (v / 64)
    exact ⟨rest ++ [.ofNat (v % 64 + 0x80)], by rw [octets, first, leading, List.cons_append]⟩

theorem octets_precede {mark parts v w : Nat} (less : v < w) (byte : leading parts w + mark < 256) :
    Precede (octets mark parts v) (octets mark parts w) := by
  induction parts generalizing v w with
  | zero => exact .of_head (Nat.add_lt_add_right less mark) byte
  | succ parts ih =>
    rw [octets, octets]
    by_cases high : v / 64 < w / 64
    · exact (ih high byte).append _ _
    · have even : v / 64 = w / 64 := by omega
      rw [even]
      exact (Precede.of_head (by omega) (by omega)).append_left _

/-- How many continuations a code point has. -/
def continuations (v : Nat) : Nat :=
  if v ≤ 0x7f then 0 else if v ≤ 0x7ff then 1 else if v ≤ 0xffff then 2 else 3

/-- What tells in the first byte how many continuations follow. -/
def firstMark : Nat → Nat
  | 0 => 0
  | 1 => 0xc0
  | 2 => 0xe0
  | _ => 0xf0

def firstByte (v : Nat) : Nat :=
  leading (continuations v) v + firstMark (continuations v)

def encode (v : Nat) : List UInt8 :=
  octets (firstMark (continuations v)) (continuations v) v

theorem encode_eq_cons (v : Nat) : ∃ rest, encode v = .ofNat (firstByte v) :: rest :=
  octets_eq_cons _ _ v

theorem continuations_cases (v : Nat) :
    v ≤ 0x7f ∧ continuations v = 0 ∨ (0x7f < v ∧ v ≤ 0x7ff) ∧ continuations v = 1 ∨
      (0x7ff < v ∧ v ≤ 0xffff) ∧ continuations v = 2 ∨ 0xffff < v ∧ continuations v = 3 := by
  unfold continuations
  repeat' split
  all_goals omega

theorem continuations_mono {v w : Nat} (le : v ≤ w) : continuations v ≤ continuations w := by
  have := continuations_cases v
  have := continuations_cases w
  omega

theorem firstByte_lt {v : Nat} (valid : v < 0x110000) : firstByte v < 256 := by
  unfold firstByte
  rcases continuations_cases v with ⟨bound, parts⟩ | ⟨bound, parts⟩ | ⟨bound, parts⟩ | ⟨bound, parts⟩
  all_goals
    rw [parts]
    simp only [leading, firstMark]
    omega

theorem firstByte_mono {v w : Nat} (more : continuations v < continuations w) : firstByte v < firstByte w := by
  unfold firstByte
  rcases continuations_cases v with ⟨bound, parts⟩ | ⟨bound, parts⟩ | ⟨bound, parts⟩ | ⟨bound, parts⟩
  all_goals
    rcases continuations_cases w with
      ⟨bound', parts'⟩ | ⟨bound', parts'⟩ | ⟨bound', parts'⟩ | ⟨bound', parts'⟩
  all_goals
    rw [parts, parts'] at more ⊢
    simp only [leading, firstMark]
    omega

theorem encode_precede {v w : Nat} (less : v < w) (valid : w < 0x110000) : Precede (encode v) (encode w) := by
  rcases Nat.lt_or_eq_of_le (continuations_mono (Nat.le_of_lt less)) with more | even
  · obtain ⟨rest, first⟩ := encode_eq_cons v
    obtain ⟨rest', first'⟩ := encode_eq_cons w
    rw [first, first']
    exact .of_head (firstByte_mono more) (firstByte_lt valid)
  · rw [encode, encode, even]
    exact octets_precede less (firstByte_lt valid)

theorem val_toNat_lt (c : Char) : c.val.toNat < 0x110000 := by
  rcases c.valid with low | high
  · exact Nat.lt_trans low (by decide)
  · exact high.2

theorem utf8EncodeChar_eq (c : Char) : String.utf8EncodeChar c = encode c.val.toNat := by
  have valid := val_toNat_lt c
  rw [String.utf8EncodeChar, encode]
  rcases continuations_cases c.val.toNat with
    ⟨bound, parts⟩ | ⟨bound, parts⟩ | ⟨bound, parts⟩ | ⟨bound, parts⟩
  · rw [parts, if_pos bound]
    rfl
  · have first : c.val.toNat / 64 % 0x20 = c.val.toNat / 64 := by omega
    rw [parts, if_neg (by omega), if_pos bound.2, first]
    rfl
  · have first : c.val.toNat / 4096 % 0x10 = c.val.toNat / 64 / 64 := by omega
    rw [parts, if_neg (by omega), if_neg (by omega), if_pos bound.2, first]
    rfl
  · have first : c.val.toNat / 262144 % 0x08 = c.val.toNat / 64 / 64 / 64 := by omega
    have second : c.val.toNat / 4096 % 0x40 = c.val.toNat / 64 / 64 % 64 := by omega
    rw [parts, if_neg (by omega), if_neg (by omega), if_neg (by omega), first, second]
    rfl

/-! ## Texts -/

theorem compare_flatMap {text other : List Char} (less : text < other) :
    compare (text.flatMap String.utf8EncodeChar) (other.flatMap String.utf8EncodeChar) = .lt := by
  induction less with
  | @nil c rest =>
    obtain ⟨bytes, first⟩ := encode_eq_cons c.val.toNat
    rw [List.flatMap_nil, List.flatMap_cons, utf8EncodeChar_eq, first]
    rfl
  | cons _ ih => rw [List.flatMap_cons, List.flatMap_cons, compare_append_left, ih]
  | @rel c text d other less =>
    rw [List.flatMap_cons, List.flatMap_cons, utf8EncodeChar_eq, utf8EncodeChar_eq]
    exact encode_precede less (val_toNat_lt d) _ _

theorem compare_bytes_of_lt {s t : String} (before : compare s t = .lt) : compare (bytes s) (bytes t) = .lt := by
  have less : s < t := compareOfLessAndEq_eq_lt.mp before
  rw [bytes_eq, bytes_eq]
  exact compare_flatMap less

/-- Texts are in the order of their bytes. -/
theorem compare_bytes (s t : String) : compare (bytes s) (bytes t) = compare s t := by
  cases order : compare s t with
  | lt => exact compare_bytes_of_lt order
  | eq =>
    rw [Std.LawfulEqOrd.eq_of_compare order]
    exact Std.compare_self
  | gt => exact Std.OrientedCmp.gt_iff_lt.mpr (compare_bytes_of_lt (Std.OrientedCmp.gt_iff_lt.mp order))

end Formula.Utf8
