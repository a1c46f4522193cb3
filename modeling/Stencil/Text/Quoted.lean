import Stencil.Text.Hidden

/-!
# Quoted literals

A listing shows text between double quotes on one line, whatever it holds: quotes, backslashes and
the common controls have short escapes, and every other character that would not show is written
by its code point in hexadecimal.

## Main definitions

* `quote`: a text as a quoted literal
-/

namespace Stencil.Text

/-- One character of a quoted literal. -/
def quoteChar (c : Char) : List Char :=
  if c = '"' then ['\\', '"']
  else if c = '\\' then ['\\', '\\']
  else if c = '\n' then ['\\', 'n']
  else if c = '\r' then ['\\', 'r']
  else if c = '\t' then ['\\', 't']
  else if c.toNat = 0 then ['\\', '0']
  else if isHidden c then ['\\', 'u', '{'] ++ Nat.toDigits 16 c.toNat ++ ['}']
  else [c]

/-- A text as a literal between double quotes. -/
def quote (s : String) : String :=
  String.ofList ('"' :: s.toList.flatMap quoteChar ++ ['"'])

end Stencil.Text
