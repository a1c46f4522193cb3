import Stencil.Config.Basic
import Stencil.Diagnostic.Basic
import Stencil.Emit.Error
import Stencil.Wire.Image
import Stencil.Wire.Interner

/-!
# Emitting operations

An emitter grows the parts of an image, one operation at a time. An operation that uses a table
becomes a new entry at the end of that table, and the instruction that names it. Whether the table
has room is asked before anything changes.

## Main definitions

* `Emitter`, `Emit`: the parts so far, and actions on them that may stop early
* `emit`: adds an operation
* `Emitter.image`: the image of the parts
-/

namespace Stencil

open Stencil.Wire

/-- The parts of an image so far, and the diagnostics reported on the way. -/
structure Emitter where
  strings : Interner := {}
  instructions : Array Instr := #[]
  tables : PerTable (Array StringRef) := .fill #[]
  parts : Array UInt8 := #[]
  diagnostics : Array Diagnostic := #[]

/-- Actions on an emitter. One that stops early leaves the emitter as it then stands. -/
abbrev Emit := EStateM CompileError Emitter

namespace Emitter

/-- The number of entries of a table. -/
def count (e : Emitter) (t : Table) : Nat :=
  (e.tables.get t).size / t.arity

/-- The image of the parts so far. -/
def image (e : Emitter) : Image where
  words := e.instructions.toList.map Instr.pack
  strings := e.strings.bytes
  tables := e.tables
  parts := e.parts.toList

end Emitter

namespace Emit

/-- Adds a report. -/
def report (d : Diagnostic) : Emit Unit :=
  modify fun e => { e with diagnostics := e.diagnostics.push d }

/-- The reference of a string, which is interned if it is new. -/
def intern (s : String) : Emit StringRef := fun e =>
  match e.strings.intern s with
  | .ok (r, strings) => .ok r { e with strings }
  | .error size => .error (.stringsFull size) e

/-- Adds a reference to the end of a table. -/
def pushRef (t : Table) (r : StringRef) : Emit Unit :=
  modify fun e => { e with tables := e.tables.modify t (·.push r) }

/-- Adds an instruction. -/
def pushInstr (i : Instr) : Emit Unit := fun e =>
  if e.instructions.size < wordLimit - 1 then
    .ok () { e with instructions := e.instructions.push i }
  else .error (.instructionsFull (e.instructions.size + 1)) e

/-- The index of the next entry of a table, if the table has room. -/
def reserve (c : Config) (t : Table) : Emit PayloadIndex := fun e =>
  if h : e.count t < c.payloadLimit then
    .ok ⟨e.count t, by
      have := c.payloadLimit_le
      simp only [entryCeiling] at this
      omega⟩ e
  else .error (.tableFull (.entry t) (e.count t + 1) c.payloadLimit) e

/-- Adds an entry of the given strings to a table, and its instruction. -/
def entry (c : Config) (t : Table) (strings : List String) : Emit Unit := do
  -- The room is asked for before anything is interned, so that a full table changes nothing.
  let index ← reserve c t
  strings.forM fun s => do
    let r ← intern s
    pushRef t r
  pushInstr (.entry t index)

/-- Room for `size` more bytes of value parts, at the offset that is returned. -/
def reserveParts (size : Nat) : Emit Nat := fun e =>
  if e.parts.size + size < wordLimit then .ok e.parts.size e
  else .error (.partsFull (e.parts.size + size)) e

/-- A segment with its text interned. -/
def segment (s : Segment) : Emit SegmentRef := do
  let value ← intern s.text
  return ⟨s.kind, value⟩

/-- Adds an attribute whose value has segments: its entry in the block of value parts, the
reference to that entry, and its instruction. -/
def valueParts (c : Config) (name : String) (segments : List Segment) : Emit Unit := do
  let index ← reserve c .valueParts
  let offset ← reserveParts (PartsEntry.size segments.length)
  -- The name comes before the segments here, although a reader reaches it last.
  let name ← intern name
  let segments ← segments.mapM segment
  modify fun e => { e with parts := e.parts ++ (PartsEntry.mk name segments).bytes }
  pushRef .valueParts ⟨.ofNat offset, .ofNat (PartsEntry.size segments.length)⟩
  pushInstr (.entry .valueParts index)

end Emit

/-- Adds an operation. -/
def emit (c : Config) : Op → Emit Unit
  | .tagOpen tag => Emit.entry c .tagOpen [tag]
  | .tagClose => Emit.pushInstr .tagClose
  | .selfClosing => Emit.pushInstr .selfClosing
  | .text s => Emit.entry c .text [s]
  | .staticAttr name value => Emit.entry c .staticAttr [name, value]
  | .dynText field => Emit.entry c .dynText [field]
  | .staticDynAttr name field => Emit.entry c .staticDynAttr [name, field]
  | .dynStaticAttr field value => Emit.entry c .dynStaticAttr [field, value]
  | .dynDynAttr nameField valueField => Emit.entry c .dynDynAttr [nameField, valueField]
  | .event event handler => Emit.entry c .dynEvent [event, handler]
  | .valueParts name segments => Emit.valueParts c name segments

end Stencil
