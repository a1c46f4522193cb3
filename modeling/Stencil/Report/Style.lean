/-!
# Text of a drawing

A drawing shows text of the source in a terminal. Tabs become four spaces and the other controls
become pictures of themselves, so that one character takes one place.

## Main definitions

* `shownChars`, `shown`: text as a drawing shows it
-/

namespace Stencil.Report

/-- A character as a drawing shows it. -/
def shownChar (c : Char) : List Char :=
  let n := c.toNat
  if c = '\n' then [c]
  else if c = '\t' then [' ', ' ', ' ', ' ']
  else if n < 0x20 then [Char.ofNat (0x2400 + n)]
  else if n = 0x7F then ['\u2421']
  else if n = 0x200D then []
  else if (0x202A ≤ n && n ≤ 0x202E) || (0x2066 ≤ n && n ≤ 0x2069) then ['\ufffd']
  else [c]

/-- Characters as a drawing shows them. -/
def shownChars (cs : List Char) : List Char :=
  cs.flatMap shownChar

/-- Text as a drawing shows it. -/
def shown (s : String) : String :=
  String.ofList (shownChars s.toList)

end Stencil.Report
