/-
# The property `White_Space`

The characters of the Unicode property `White_Space`, as ascending ranges of code points with both
ends included. Quoted pieces of a text are trimmed by it; the language itself knows only four blanks.

Key definitions: `Unicode.isWhiteSpace`, `Unicode.trimEnd`.
-/
import SelectLang.Unicode.Ranges

namespace SelectLang
namespace Unicode

/-- The ranges of the property, as the standard lists them. -/
def whiteSpaceRanges : List (Nat × Nat) := [
  (0x9, 0xD), (0x20, 0x20), (0x85, 0x85), (0xA0, 0xA0), (0x1680, 0x1680), (0x2000, 0x200A),
  (0x2028, 0x2029), (0x202F, 0x202F), (0x205F, 0x205F), (0x3000, 0x3000)]

/-- The character is white space. -/
def isWhiteSpace (c : Char) : Bool :=
  inRanges whiteSpaceRanges c.toNat

/-- The text without the white space at its end. -/
def trimEnd (s : List Char) : List Char :=
  (s.reverse.dropWhile isWhiteSpace).reverse

end Unicode
end SelectLang
