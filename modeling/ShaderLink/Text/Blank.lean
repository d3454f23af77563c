/-
White space.

A blank is a character of Unicode's White_Space property.  The words of a text
are its pieces between blanks, and trimming takes the blanks off both ends.
-/
import ShaderLink.Text.Fields

namespace ShaderLink

namespace Text

/-- A character of Unicode's White_Space property. -/
def isBlank (c : Char) : Bool :=
  let n := c.toNat
  (0x09 ≤ n && n ≤ 0x0D) || n == 0x20 || n == 0x85 || n == 0xA0 || n == 0x1680 ||
    (0x2000 ≤ n && n ≤ 0x200A) || n == 0x2028 || n == 0x2029 || n == 0x202F ||
    n == 0x205F || n == 0x3000

/-- The words of a text: its pieces between blanks. -/
def words (text : String) : List String :=
  (fullFields isBlank text.toList).map String.ofList

/-- A list of characters without those at either end that pass the test. -/
def stripEnds (outer : Char → Bool) (text : List Char) : List Char :=
  ((text.dropWhile outer).reverse.dropWhile outer).reverse

def trim (text : String) : String :=
  String.ofList (stripEnds isBlank text.toList)

end Text

end ShaderLink
