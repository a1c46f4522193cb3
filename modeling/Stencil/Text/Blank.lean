import Stencil.Text.Split

/-!
# White space and letter case

Two notions of white space meet in a template. Text is blank, and names are trimmed, by the
Unicode property `White_Space`; inside a tag only the five ASCII separators count. Letter case is
folded for ASCII letters only.

## Main definitions

* `isBlank`: the Unicode property `White_Space`
* `isSeparator`: space, tab, line feed, form feed, carriage return
* `trim`, `isBlankText`, `lowercase`: on strings
-/

namespace Stencil.Text

/-- The code points of the Unicode property `White_Space`, as inclusive ranges. -/
def blankRanges : List (Nat × Nat) :=
  [(0x09, 0x0D), (0x20, 0x20), (0x85, 0x85), (0xA0, 0xA0), (0x1680, 0x1680), (0x2000, 0x200A),
    (0x2028, 0x2029), (0x202F, 0x202F), (0x205F, 0x205F), (0x3000, 0x3000)]

/-- The Unicode property `White_Space`. -/
def isBlank (c : Char) : Bool :=
  blankRanges.any fun r => r.1 ≤ c.toNat && c.toNat ≤ r.2

/-- The separators inside a tag: space, tab, line feed, form feed and carriage return. -/
def isSeparator (c : Char) : Bool :=
  c = ' ' || c = '\t' || c = '\n' || c = '\r' || c = '\x0c'

/-- A list without its blank characters at both ends. -/
def trimChars (s : List Char) : List Char :=
  ((s.dropWhile isBlank).reverse.dropWhile isBlank).reverse

/-- A text without its blank characters at both ends. -/
def trim (s : String) : String :=
  String.ofList (trimChars s.toList)

/-- Whether a text has no character that is not blank. -/
def isBlankText (s : String) : Bool :=
  s.toList.all isBlank

/-- A text with its ASCII capitals made small. -/
def lowercase (s : String) : String :=
  String.ofList (s.toList.map Char.toLower)

/-- `rest` when the text is `front` followed by `rest`. -/
def afterFront? (front s : List Char) : Option (List Char) :=
  if front.isPrefixOf s then some (s.drop front.length) else none

end Stencil.Text
