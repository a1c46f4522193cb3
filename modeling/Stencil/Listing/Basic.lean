import Stencil.Listing.Palette
import Stencil.Wire.Image

/-!
# Listings

A listing shows an image to people: the counts of its header, its string table as one literal, and
one line for each operation, numbered and indented by the depth of the element it belongs to.

## Main definitions

* `formatOp`: an operation as a line of code
* `codeLines`: the numbered and indented lines
* `listing`: the whole text
-/

namespace Stencil.Listing

open Stencil.Text Stencil.Wire

/-- An attribute, name and value already marked. -/
def formatAttr (p : Palette) (name value : String) : String :=
  p.mnemonic "attr" ++ " " ++ name ++ "=" ++ value

/-- A segment of a value. -/
def formatSegment (p : Palette) : Segment → String
  | .static s => p.literal s
  | .dynamic f => p.field f

/-- An operation as a line of code. -/
def formatOp (p : Palette) : Op → String
  | .tagOpen tag => p.mnemonic "open" ++ " " ++ tag
  | .tagClose => p.mnemonic "close"
  | .selfClosing => p.mnemonic "void"
  | .text s => p.mnemonic "text" ++ " " ++ p.literal s
  | .dynText f => p.mnemonic "dyn_text" ++ " " ++ p.field f
  | .staticAttr name value => formatAttr p name (p.literal value)
  | .staticDynAttr name f => formatAttr p name (p.field f)
  | .dynStaticAttr f value => formatAttr p (p.field f) (p.literal value)
  | .dynDynAttr f g => formatAttr p (p.field f) (p.field g)
  | .event e h => p.mnemonic "on" ++ " " ++ e ++ "=" ++ p.field h
  | .valueParts name segments =>
    formatAttr p name ("[" ++ " ".intercalate (segments.map (formatSegment p)) ++ "]")

/-- The number of digits of the last of `count` numbers that start at zero. -/
def numberWidth (count : Nat) : Nat :=
  (Nat.repr (count - 1)).length

/-- A number in a field of `width` characters, at its right end. -/
def padNumber (width n : Nat) : String :=
  String.ofList (List.replicate (width - (Nat.repr n).length) ' ') ++ Nat.repr n

/-- The depth at which an operation stands, if `depth` elements are open before it. -/
def depthOf (depth : Nat) : Op → Nat
  | .tagClose | .selfClosing => depth - 1
  | _ => depth

/-- The number of elements open after an operation, if `depth` are open before it. -/
def depthAfter (depth : Nat) : Op → Nat
  | .tagOpen _ => depth + 1
  | .tagClose | .selfClosing => depth - 1
  | _ => depth

/-- The line of an operation with its number and depth. -/
def codeLine (p : Palette) (width index depth : Nat) (op : Op) : String :=
  p.dim (padNumber width index) ++ "  " ++ String.ofList (List.replicate (2 * depth) ' ')
    ++ formatOp p op

/-- The lines of operations numbered from `index` on, with `depth` elements open. -/
def codeLines (p : Palette) (width : Nat) : Nat → Nat → List Op → List String
  | _, _, [] => []
  | index, depth, op :: rest =>
    codeLine p width index (depthOf depth op) op
      :: codeLines p width (index + 1) (depthAfter depth op) rest

/-- The lines of the counts. -/
def headerLines (p : Palette) (h : Header) : List String :=
  [p.mnemonic "[header]", s!"instructions = {h.instructions.toNat}",
    s!"string_bytes = {h.strings.toNat}"]
    ++ Table.all.map (fun t => s!"{t.name} = {(h.tables.get t).toNat}")
    ++ [s!"parts_bytes = {h.parts.toNat}"]

/-- The lines of a listing, for the operations `ops` of an image. -/
def lines (p : Palette) (i : Image) (ops : List Op) : List String :=
  headerLines p i.header
    ++ ["", p.mnemonic "[strings]", p.literal (Utf8.decodeLossy i.strings), "",
      p.mnemonic "[code]"]
    ++ codeLines p (numberWidth ops.length) 0 0 ops

/-- An image for people, each line ended. -/
def listing (p : Palette) (i : Image) : Except ImageError String :=
  i.decode.map fun ops => String.join ((lines p i ops).map (· ++ "\n"))

end Stencil.Listing
