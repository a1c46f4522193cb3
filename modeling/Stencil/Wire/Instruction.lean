/-!
# Instructions

An instruction ends an element, or names an entry of one of nine payload tables. On the wire it is
one word: the opcode in the low byte, and the index of the entry in the other three.

## Main definitions

* `Table`, `PerTable`: the nine payload tables, and one value for each
* `Opcode`: what an instruction does
* `Instr`, `Instr.pack`, `Instr.unpack?`: instructions and their words

## Main results

* `Opcode.ofCode?_code`: every opcode is found under its number
* `Instr.unpack?_pack`: an instruction is read back from its word
* `PerTable.get_set`: what a table holds after a change
-/

namespace Stencil.Wire

/-- The payload tables, in the order in which an image holds them. -/
inductive Table where
  | tagOpen
  | text
  | staticAttr
  | dynText
  | staticDynAttr
  | dynStaticAttr
  | dynDynAttr
  | dynEvent
  | valueParts
  deriving DecidableEq, Repr

namespace Table

/-- The tables in the order of an image. -/
def all : List Table :=
  [tagOpen, text, staticAttr, dynText, staticDynAttr, dynStaticAttr, dynDynAttr, dynEvent,
    valueParts]

/-- The name of a table in listings. -/
def name : Table → String
  | tagOpen => "tag_open"
  | text => "text"
  | staticAttr => "static_attr"
  | dynText => "dyn_text"
  | staticDynAttr => "static_dyn_attr"
  | dynStaticAttr => "dyn_static_attr"
  | dynDynAttr => "dyn_dyn_attr"
  | dynEvent => "dyn_event"
  | valueParts => "dyn_attr_value_part_ref"

/-- The number of references of an entry. -/
def arity : Table → Nat
  | tagOpen | text | dynText | valueParts => 1
  | staticAttr | staticDynAttr | dynStaticAttr | dynDynAttr | dynEvent => 2

/-- The number of bytes of an entry. -/
def entrySize (t : Table) : Nat :=
  t.arity * 8

theorem arity_pos (t : Table) : 0 < t.arity := by
  cases t <;> decide

end Table

/-- One value for each payload table. -/
structure PerTable (α : Type) where
  tagOpen : α
  text : α
  staticAttr : α
  dynText : α
  staticDynAttr : α
  dynStaticAttr : α
  dynDynAttr : α
  dynEvent : α
  valueParts : α
  deriving DecidableEq, Repr

namespace PerTable

variable {α β : Type}

/-- The value of a table. -/
def get (p : PerTable α) : Table → α
  | .tagOpen => p.tagOpen
  | .text => p.text
  | .staticAttr => p.staticAttr
  | .dynText => p.dynText
  | .staticDynAttr => p.staticDynAttr
  | .dynStaticAttr => p.dynStaticAttr
  | .dynDynAttr => p.dynDynAttr
  | .dynEvent => p.dynEvent
  | .valueParts => p.valueParts

/-- The values with one table's value changed by `f`. -/
def modify (p : PerTable α) (t : Table) (f : α → α) : PerTable α :=
  match t with
  | .tagOpen => { p with tagOpen := f p.tagOpen }
  | .text => { p with text := f p.text }
  | .staticAttr => { p with staticAttr := f p.staticAttr }
  | .dynText => { p with dynText := f p.dynText }
  | .staticDynAttr => { p with staticDynAttr := f p.staticDynAttr }
  | .dynStaticAttr => { p with dynStaticAttr := f p.dynStaticAttr }
  | .dynDynAttr => { p with dynDynAttr := f p.dynDynAttr }
  | .dynEvent => { p with dynEvent := f p.dynEvent }
  | .valueParts => { p with valueParts := f p.valueParts }

/-- The values with one table's value replaced. -/
def set (p : PerTable α) (t : Table) (a : α) : PerTable α :=
  p.modify t fun _ => a

/-- The values of a function. -/
def ofFn (f : Table → α) : PerTable α where
  tagOpen := f .tagOpen
  text := f .text
  staticAttr := f .staticAttr
  dynText := f .dynText
  staticDynAttr := f .staticDynAttr
  dynStaticAttr := f .dynStaticAttr
  dynDynAttr := f .dynDynAttr
  dynEvent := f .dynEvent
  valueParts := f .valueParts

/-- The same value for every table. -/
def fill (a : α) : PerTable α :=
  ofFn fun _ => a

/-- The values in the order of the tables. -/
def toList (p : PerTable α) : List α :=
  Table.all.map p.get

@[simp] theorem get_ofFn (f : Table → α) (t : Table) : (ofFn f).get t = f t := by
  cases t <;> rfl

@[simp] theorem get_fill (a : α) (t : Table) : (fill a).get t = a :=
  get_ofFn _ t

theorem get_modify (p : PerTable α) (t u : Table) (f : α → α) :
    (p.modify t f).get u = if u = t then f (p.get t) else p.get u := by
  cases t <;> cases u <;> rfl

theorem get_set (p : PerTable α) (t u : Table) (a : α) :
    (p.set t a).get u = if u = t then a else p.get u :=
  get_modify p t u _

/-- Two families with the same values are equal. -/
theorem ext_get {p q : PerTable α} (h : ∀ t, p.get t = q.get t) : p = q := by
  have := h .tagOpen; have := h .text; have := h .staticAttr; have := h .dynText
  have := h .staticDynAttr; have := h .dynStaticAttr; have := h .dynDynAttr
  have := h .dynEvent; have := h .valueParts
  cases p; cases q
  simp_all [get]

end PerTable

/-- What an instruction does: end an element, end a void element, or use an entry of a table. -/
inductive Opcode where
  | tagClose
  | selfClosing
  | entry (table : Table)
  deriving DecidableEq, Repr

namespace Opcode

/-- The number of an opcode on the wire. -/
def code : Opcode → UInt8
  | entry .tagOpen => 0
  | tagClose => 1
  | selfClosing => 2
  | entry .text => 3
  | entry .staticAttr => 4
  | entry .dynText => 5
  | entry .staticDynAttr => 6
  | entry .dynStaticAttr => 7
  | entry .dynDynAttr => 8
  | entry .dynEvent => 9
  | entry .valueParts => 10

/-- The opcodes in the order of their numbers. -/
def all : List Opcode :=
  [entry .tagOpen, tagClose, selfClosing, entry .text, entry .staticAttr, entry .dynText,
    entry .staticDynAttr, entry .dynStaticAttr, entry .dynDynAttr, entry .dynEvent,
    entry .valueParts]

/-- The opcode with a number. -/
def ofCode? (n : UInt8) : Option Opcode :=
  all[n.toNat]?

/-- The name of an opcode in messages. -/
def name : Opcode → String
  | entry .tagOpen => "static_tag_open"
  | tagClose => "static_tag_close"
  | selfClosing => "self_closing_tag"
  | entry .text => "static_text"
  | entry .staticAttr => "static_attribute"
  | entry .dynText => "dyn_text"
  | entry .staticDynAttr => "static_dyn_attr"
  | entry .dynStaticAttr => "dyn_static_attr"
  | entry .dynDynAttr => "dyn_dyn_attr"
  | entry .dynEvent => "dyn_event"
  | entry .valueParts => "dyn_attribute_value_parts"

/-- The table whose entries an opcode uses. -/
def table? : Opcode → Option Table
  | entry t => some t
  | tagClose | selfClosing => none

@[simp] theorem ofCode?_code (o : Opcode) : ofCode? o.code = some o := by
  cases o with
  | entry t => cases t <;> rfl
  | tagClose => rfl
  | selfClosing => rfl

theorem code_lt (o : Opcode) : o.code.toNat < 11 := by
  cases o with
  | entry t => cases t <;> decide
  | tagClose => decide
  | selfClosing => decide

end Opcode

/-- The index of an entry, which has 24 bits on the wire. -/
abbrev PayloadIndex := Fin 16777216

/-- An instruction with the index of its entry, if it uses one. -/
inductive Instr where
  | tagClose
  | selfClosing
  | entry (table : Table) (index : PayloadIndex)
  deriving DecidableEq, Repr

namespace Instr

/-- The instruction of an opcode with an index, which the two closing opcodes ignore. -/
def ofOpcode : Opcode → PayloadIndex → Instr
  | .tagClose, _ => tagClose
  | .selfClosing, _ => selfClosing
  | .entry t, i => entry t i

/-- The opcode of an instruction. -/
def opcode : Instr → Opcode
  | tagClose => .tagClose
  | selfClosing => .selfClosing
  | entry t _ => .entry t

/-- The index of an instruction's entry. -/
def payload? : Instr → Option PayloadIndex
  | tagClose | selfClosing => none
  | entry _ i => some i

/-- The word of an instruction: the opcode, then the index, zero where there is none. -/
def pack (i : Instr) : UInt32 :=
  .ofNat (i.opcode.code.toNat + 256 * (i.payload?.getD 0).val)

/-- The instruction of a word. The upper bytes of the two closing opcodes are ignored. -/
def unpack? (w : UInt32) : Option Instr :=
  (Opcode.ofCode? (.ofNat w.toNat)).map fun o =>
    ofOpcode o ⟨w.toNat / 256, by have := w.toNat_lt; omega⟩

theorem toNat_pack (i : Instr) :
    i.pack.toNat = i.opcode.code.toNat + 256 * (i.payload?.getD 0).val := by
  have := i.opcode.code_lt
  have := (i.payload?.getD 0).isLt
  simp only [pack, UInt32.toNat_ofNat']
  omega

/-- **An instruction is read back from its word.** -/
@[simp] theorem unpack?_pack (i : Instr) : unpack? i.pack = some i := by
  have hc := i.opcode.code_lt
  have h := toNat_pack i
  have hlow : UInt8.ofNat i.pack.toNat = i.opcode.code := by
    apply UInt8.toNat_inj.mp
    rw [UInt8.toNat_ofNat', h]
    omega
  have hhigh : i.pack.toNat / 256 = (i.payload?.getD 0).val := by omega
  simp only [unpack?, hlow, Opcode.ofCode?_code, Option.map_some, hhigh]
  cases i <;> rfl

end Instr

end Stencil.Wire
