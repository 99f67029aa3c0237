/-!
# Blank characters

The characters with the Unicode property White_Space, and texts without them at the ends.
-/

namespace Formula

/-- The 25 characters of White_Space. -/
def isBlank (c : Char) : Bool :=
  let code := c.toNat
  (0x09 ≤ code && code ≤ 0x0D) || code == 0x20 || code == 0x85 || code == 0xA0 || code == 0x1680 ||
    (0x2000 ≤ code && code ≤ 0x200A) || code == 0x2028 || code == 0x2029 || code == 0x202F ||
    code == 0x205F || code == 0x3000

def trimLeft (text : List Char) : List Char :=
  text.dropWhile isBlank

def trimRight (text : List Char) : List Char :=
  text.reverse.dropWhile isBlank |>.reverse

/-- The text without the blanks around it. -/
def trim (text : List Char) : List Char :=
  trimRight (trimLeft text)

end Formula
