/-!
# Blanks

Blanks separate the words of a source text and are cut off around the values of settings.

* `isBlank`: the blank characters;
* `trim`: a text without the blanks around it.
-/

namespace ScopedLisp.Text

/-- The blank characters: tabulators and line ends, the four ASCII separators, the space, and the
spaces and separators beyond ASCII. The zero-width space is not one of them. -/
def isBlank (c : Char) : Bool :=
  let n := c.toNat
  (9 ≤ n && n ≤ 13) || (28 ≤ n && n ≤ 32) || n == 0x85 || n == 0xa0 || n == 0x1680 ||
    (0x2000 ≤ n && n ≤ 0x200a) || n == 0x2028 || n == 0x2029 || n == 0x202f || n == 0x205f ||
    n == 0x3000

/-- The text without the blanks at both ends. -/
def trim (s : String) : String :=
  String.ofList ((s.toList.dropWhile isBlank).reverse.dropWhile isBlank).reverse

end ScopedLisp.Text
