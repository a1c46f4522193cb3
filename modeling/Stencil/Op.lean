import Stencil.Segment
import Stencil.Wire.Instruction

/-!
# Operations

A compiled template is a list of operations for a renderer: open and close elements, attach
attributes and events to the element just opened, and add text. An operation carries its strings;
in an image it is an instruction whose strings are reached through tables.

## Main definitions

* `Op`: the operations of a template
* `Op.opcode`: the opcode under which an operation is stored
-/

namespace Stencil

/-- An operation of a compiled template. -/
inductive Op where
  | tagOpen (tag : String)
  | tagClose
  | selfClosing
  | text (text : String)
  | staticAttr (name value : String)
  | dynText (field : String)
  | staticDynAttr (name field : String)
  | dynStaticAttr (field value : String)
  | dynDynAttr (nameField valueField : String)
  | event (event handler : String)
  | valueParts (name : String) (segments : List Segment)
  deriving DecidableEq, Repr

/-- The opcode under which an operation is stored. -/
def Op.opcode : Op → Wire.Opcode
  | tagOpen _ => .entry .tagOpen
  | tagClose => .tagClose
  | selfClosing => .selfClosing
  | text _ => .entry .text
  | staticAttr _ _ => .entry .staticAttr
  | dynText _ => .entry .dynText
  | staticDynAttr _ _ => .entry .staticDynAttr
  | dynStaticAttr _ _ => .entry .dynStaticAttr
  | dynDynAttr _ _ => .entry .dynDynAttr
  | event _ _ => .entry .dynEvent
  | valueParts _ _ => .entry .valueParts

end Stencil
