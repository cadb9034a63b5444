import MelScript.Text.Basic

/-! # Blank characters

  The characters with the Unicode property `White_Space`. Control characters
  `U+001C` to `U+001F`, the zero-width space and the byte order mark do not
  have it.
-/

namespace MelScript

/-- Whether a character is white space. -/
def isBlank (c : Char) : Bool :=
  let n := c.toNat
  (0x09 ≤ n && n ≤ 0x0D) || n == 0x20 || n == 0x85 || n == 0xA0 || n == 0x1680 ||
    (0x2000 ≤ n && n ≤ 0x200A) || n == 0x2028 || n == 0x2029 || n == 0x202F || n == 0x205F ||
    n == 0x3000

namespace Text

/-- Whether a text has nothing but white space in it. -/
def allBlank (t : Text) : Bool := t.all isBlank

end Text

end MelScript
