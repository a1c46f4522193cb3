import Stencil.Op
import Stencil.Placeholder

/-!
# Bindings

How an attribute is bound depends on the braces of its name and its value. Events come first: an
attribute whose name begins with `on` and whose value is dynamic binds a handler.

## Main definitions

* `Binding`, `classify`: the six kinds of attribute
* `Binding.op`: the operation that attaches an attribute
-/

namespace Stencil

open Stencil.Text Stencil.Placeholder

/-- How an attribute is bound. -/
inductive Binding where
  | event (event handler : String)
  | dynDyn (nameField valueField : String)
  | parts (name : String) (segments : List Segment)
  | staticDyn (name field : String)
  | dynStatic (field value : String)
  | static (name value : String)
  deriving DecidableEq, Repr

namespace Binding

/-- Whether the name of an attribute is that of an event. -/
def isEventName (name : String) : Bool :=
  ['o', 'n'].isPrefixOf name.toList

/-- The text without `front`, if it begins with it. -/
def strip (front : List Char) (s : String) : String :=
  match afterFront? front s.toList with
  | none => s
  | some rest => String.ofList rest

/-- The event that the name of an attribute stands for. -/
def eventName (name : String) : String :=
  strip ['o', 'n'] name

/-- The handler that the value of an event attribute names. The mark `eh__` in front of a
handler is dropped. -/
def handlerField (value : String) : String :=
  strip ['e', 'h', '_', '_'] (fieldName value)

/-- The binding of an attribute with a literal name and a dynamic value. -/
def ofValue (name value : String) : Binding :=
  match valueSegments value with
  | first :: second :: rest => parts name (first :: second :: rest)
  | _ => staticDyn name (fieldName value)

/-- The binding of an attribute. -/
def classify (name value : String) : Binding :=
  if isEventName name && isDynamic value then event (eventName name) (handlerField value)
  else
    match isDynamic name, isDynamic value with
    | true, true => dynDyn (fieldName name) (fieldName value)
    | false, true => ofValue name value
    | true, false => dynStatic (fieldName name) value
    | false, false => static name value

/-- The operation that attaches an attribute. -/
def op : Binding → Op
  | event e h => .event e h
  | dynDyn n v => .dynDynAttr n v
  | parts n s => .valueParts n s
  | staticDyn n f => .staticDynAttr n f
  | dynStatic f v => .dynStaticAttr f v
  | static n v => .staticAttr n v

end Binding

end Stencil
