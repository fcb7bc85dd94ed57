/-!
# White space

The Unicode property White_Space, and the removal of white space around a text. Zero-width
characters such as U+200B and U+FEFF do not have the property.
-/

namespace ElTemplate.Text

/-- Whether the character has the property White_Space. -/
def isBlank (c : Char) : Bool :=
  let n := c.toNat
  (0x09 ≤ n && n ≤ 0x0D) || n == 0x20 || n == 0x85 || n == 0xA0 || n == 0x1680 ||
    (0x2000 ≤ n && n ≤ 0x200A) || n == 0x2028 || n == 0x2029 || n == 0x202F ||
    n == 0x205F || n == 0x3000

/-- The text without the white space at its two ends. -/
def trimChars (cs : List Char) : List Char :=
  ((cs.dropWhile isBlank).reverse.dropWhile isBlank).reverse

/-- The string without the white space at its two ends. -/
def trim (s : String) : String :=
  String.ofList (trimChars s.toList)

end ElTemplate.Text
