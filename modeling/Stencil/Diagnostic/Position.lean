import Stencil.Text.Utf8

/-!
# Lines and columns

People look for a place by its line and column, both counted from one. Lines end with a line feed,
and columns count characters. A byte offset inside a character is taken for the start of that
character, and one behind the source for its end.

## Main definitions

* `backUp`: the last offset up to a given one at which a character begins or ends
* `textBefore`: the characters in front of a byte offset
* `Position`, `positionOf`: the line and column of a byte offset
-/

namespace Stencil.Diagnostic

open Stencil.Text

/-- A line and a column, both counted from one. -/
structure Position where
  line : Nat := 1
  column : Nat := 1
  deriving DecidableEq, Repr

/-- Goes back from an offset to the start of the character that it lies in. -/
def backUp (source : String) : Nat → Nat
  | 0 => 0
  | n + 1 => if String.Pos.Raw.isValid source ⟨n + 1⟩ then n + 1 else backUp source n

/-- The characters in front of a byte offset. -/
def textBefore (source : String) (offset : Nat) : List Char :=
  (Utf8.cut (backUp source (min offset source.utf8ByteSize)) source.toList).1

/-- The position of a byte offset in a source: a line for each line feed in front of it, and a
column for each character behind the last one of them. -/
def positionOf (source : String) (offset : Nat) : Position :=
  let before := textBefore source offset
  ⟨before.count '\n' + 1, (before.reverse.takeWhile (· ≠ '\n')).length + 1⟩

end Stencil.Diagnostic
