/-!
# Blank characters

The characters of the `White_Space` property. A bare symbol ends at the first of them, and
text around the values of a truth-table column is trimmed of them.
-/

namespace PhasedTests.Text

/-- The members of the `White_Space` property: six in ASCII, nineteen beyond it. -/
def isBlank (c : Char) : Bool :=
  let n := c.toNat
  (0x09 ≤ n && n ≤ 0x0D) || n == 0x20 || n == 0x85 || n == 0xA0 || n == 0x1680 ||
    (0x2000 ≤ n && n ≤ 0x200A) || n == 0x2028 || n == 0x2029 || n == 0x202F || n == 0x205F ||
    n == 0x3000

/-- The characters without the blanks at either end. -/
def trimBlank (chars : List Char) : List Char :=
  ((chars.dropWhile isBlank).reverse.dropWhile isBlank).reverse

end PhasedTests.Text
