import Stencil.Text.Quoted

/-!
# Palettes

A listing marks words by what they are, and a palette says which escape sequence of a terminal
goes with each. The plain palette has none.

## Main definitions

* `Palette`, `Palette.plain`, `Palette.color`: the escape sequences
* `Palette.mnemonic`, `Palette.literal`, `Palette.field`, `Palette.dim`: marked words
-/

namespace Stencil.Listing

open Stencil.Text

/-- An escape sequence for each role of a word, and one that ends them. -/
structure Palette where
  mnemonicCode : String := ""
  literalCode : String := ""
  fieldCode : String := ""
  dimCode : String := ""
  reset : String := ""
  deriving DecidableEq, Repr

namespace Palette

/-- No marks. -/
def plain : Palette := {}

/-- Blue mnemonics, green literals, yellow fields and faint numbers. -/
def color : Palette where
  mnemonicCode := "\x1b[34m"
  literalCode := "\x1b[32m"
  fieldCode := "\x1b[33m"
  dimCode := "\x1b[2m"
  reset := "\x1b[0m"

/-- The palette with marks or without. -/
def ofEnabled (enabled : Bool) : Palette :=
  if enabled then color else plain

/-- Whether a palette marks anything. -/
def isEnabled (p : Palette) : Bool :=
  p ≠ plain

/-- A heading or the word of an operation. -/
def mnemonic (p : Palette) (text : String) : String :=
  p.mnemonicCode ++ text ++ p.reset

/-- Literal text, quoted. -/
def literal (p : Palette) (text : String) : String :=
  p.literalCode ++ quote text ++ p.reset

/-- The name of a field, between braces as in a template. -/
def field (p : Palette) (name : String) : String :=
  p.fieldCode ++ "\x7b" ++ name ++ "\x7d" ++ p.reset

/-- The number of a line. -/
def dim (p : Palette) (text : String) : String :=
  p.dimCode ++ text ++ p.reset

end Palette

end Stencil.Listing
