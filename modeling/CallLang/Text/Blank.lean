/-!
# White space

The characters that Unicode counts as white space, and trimming by them. The language itself
separates words only by four of them; the full set is what surrounding blanks of a printed or
entered line are made of.
-/

namespace CallLang

/-- Whether a character is white space in the sense of Unicode, the information separators of
ASCII included. -/
def isBlank (c : Char) : Bool :=
  let n := c.toNat
  (0x09 ≤ n && n ≤ 0x0d) || (0x1c ≤ n && n ≤ 0x20) || n == 0x85 || n == 0xa0 || n == 0x1680 ||
    (0x2000 ≤ n && n ≤ 0x200a) || n == 0x2028 || n == 0x2029 || n == 0x202f || n == 0x205f ||
    n == 0x3000

/-- A list of characters without the white space around it. -/
def trimBlanks (cs : List Char) : List Char :=
  ((cs.dropWhile isBlank).reverse.dropWhile isBlank).reverse

/-- A text without the white space around it. -/
def strip (text : String) : String :=
  String.ofList (trimBlanks text.toList)

end CallLang
