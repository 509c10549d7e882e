/-! # Blank characters, trimming and letter case

Template source is scanned as a list of characters. Two notions of blank are in use: the Unicode
property, by which code and names are trimmed, and the five ASCII blanks that separate the parts
of a tag. Letters are folded within ASCII only.
-/

namespace HtmlTemplate

/-- The characters with the Unicode property `White_Space`. -/
def isBlank (c : Char) : Bool :=
  let n := c.toNat
  (9 ≤ n && n ≤ 13) || n == 0x20 || n == 0x85 || n == 0xA0 || n == 0x1680 ||
    (0x2000 ≤ n && n ≤ 0x200A) || n == 0x2028 || n == 0x2029 || n == 0x202F ||
    n == 0x205F || n == 0x3000

/-- The blanks that separate the parts of a tag: space, tab, line feed, form feed, return. -/
def isTagBlank (c : Char) : Bool :=
  c == ' ' || c == '\t' || c == '\n' || c == '\x0c' || c == '\r'

namespace Chars

/-- The list without its longest tail of characters in `p`. -/
def dropTail (p : Char → Bool) (s : List Char) : List Char :=
  (s.reverse.dropWhile p).reverse

/-- The list without blanks at either end. -/
def trim (s : List Char) : List Char :=
  dropTail isBlank (s.dropWhile isBlank)

/-- The list with ASCII capitals made small. -/
def lower (s : List Char) : List Char :=
  s.map Char.toLower

end Chars

/-- The text without blanks at either end. -/
def trimmed (s : String) : String :=
  String.ofList (Chars.trim s.toList)

end HtmlTemplate
