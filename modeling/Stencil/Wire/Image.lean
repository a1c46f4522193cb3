import Stencil.Op
import Stencil.Text.Utf8
import Stencil.Wire.Header
import Stencil.Wire.Parts

/-!
# Images

An image is a compiled template in four parts: instruction words, string bytes, nine tables of
references and the block of value parts. Its header is read off the lengths of the parts, so that
the writer and the reader agree on the layout.

Reading trusts nothing. `Image.load` accepts a byte string only if its size is the one that its
header asks for; after that every section lies inside. `Image.decode` follows each instruction to
its strings and stops at the first one that leads nowhere.

## Main definitions

* `Image`, `Image.header`: the parts of a compiled template and their counts
* `Image.bytes`, `Image.load`: the wire form, and back
* `Image.entryAt?`, `Image.pair?`, `Image.string`, `Image.partsEntry`: following references
* `Image.decode`: the operations of a template
-/

namespace Stencil.Wire

open Stencil.Text

/-- The parts of a compiled template. A table is the flat list of its references. -/
structure Image where
  words : List UInt32
  strings : List UInt8
  tables : PerTable (Array StringRef)
  parts : List UInt8
  deriving DecidableEq, Repr

namespace Image

/-- The number of entries of a table. -/
def count (i : Image) (t : Table) : Nat :=
  (i.tables.get t).size / t.arity

/-- The counts of an image. -/
def header (i : Image) : Header where
  instructions := .ofNat i.words.length
  strings := .ofNat i.strings.length
  tables := .ofFn fun t => .ofNat (i.count t)
  parts := .ofNat i.parts.length

/-- The zero bytes between the end of a section at `cursor` and the next multiple of four. -/
def padding (cursor : Nat) : List UInt8 :=
  List.replicate (alignUp cursor 4 - cursor) 0

/-- The wire form: header, words, strings, padding, tables, value parts. -/
def bytes (i : Image) : List UInt8 :=
  i.header.bytes ++ i.words.flatMap wordBytes ++ i.strings
    ++ padding (headerSize + 4 * i.words.length + i.strings.length)
    ++ i.tables.toList.flatMap (fun refs => refs.toList.flatMap StringRef.bytes)
    ++ i.parts

/-- The bytes from `start` to `stop`. -/
def span (bytes : List UInt8) (start stop : Nat) : List UInt8 :=
  (bytes.drop start).take (stop - start)

/-- The image that a byte string is. Its size has to be the one that its header asks for. -/
def load (bytes : List UInt8) : Except ImageError Image :=
  match Header.ofBytes? bytes with
  | none => .error (.tooSmall bytes.length)
  | some h =>
    let o := h.offsets
    if o.stop = bytes.length then
      -- The last section ends where the bytes end, so all of them lie inside.
      .ok {
        words := Wire.words (span bytes o.instructions o.strings)
        strings := span bytes o.strings (o.strings + h.strings.toNat)
        tables := .ofFn fun t =>
          let start := o.tables.get t
          (stringRefs (span bytes start
            (start + (h.tables.get t).toNat * t.entrySize))).toArray
        parts := span bytes o.parts o.stop }
    else .error (.sizeMismatch o.stop bytes.length)

/-! ## Following references -/

/-- The first reference of an entry. -/
def entryAt? (i : Image) (t : Table) (index : Nat) : Option StringRef :=
  (i.tables.get t)[index * t.arity]?

/-- Both references of an entry, in a table whose entries have two. -/
def pair? (i : Image) (t : Table) (index : Nat) : Option (StringRef × StringRef) :=
  if t.arity = 2 then
    match (i.tables.get t)[index * 2]?, (i.tables.get t)[index * 2 + 1]? with
    | some a, some b => some (a, b)
    | _, _ => none
  else none

/-- The text that a reference names. -/
def string (i : Image) (r : StringRef) : Except ImageError String :=
  match r.slice? i.strings with
  | none => .error (.stringOutOfRange r i.strings.length)
  | some bytes =>
    match Utf8.decode? bytes with
    | none => .error (.invalidText r)
    | some s => .ok s

/-- The entry of the block of value parts that a reference names. -/
def partsEntry (i : Image) (r : StringRef) : Except ImageError PartsEntry :=
  match r.slice? i.parts with
  | none => .error (.stringOutOfRange r i.parts.length)
  | some bytes => PartsEntry.ofBytes bytes

/-- The segment whose text is reached by following its reference. -/
def segment (i : Image) (s : SegmentRef) : Except ImageError Segment :=
  (i.string s.value).map (Segment.ofKind s.kind)

/-! ## Decoding -/

/-- The one string of an entry. -/
def single (i : Image) (index : Nat) (t : Table) (payload : Nat) : Except ImageError String :=
  match i.entryAt? t payload with
  | none => .error (.payloadOutOfRange index (.entry t) payload (i.count t))
  | some r => i.string r

/-- The two strings of an entry. -/
def double (i : Image) (index : Nat) (t : Table) (payload : Nat) :
    Except ImageError (String × String) :=
  match i.pair? t payload with
  | none => .error (.payloadOutOfRange index (.entry t) payload (i.count t))
  | some (a, b) => do
    let first ← i.string a
    let second ← i.string b
    pure (first, second)

/-- The attribute of an entry of the table of value parts: its segments first, then its name. -/
def valueParts (i : Image) (index payload : Nat) : Except ImageError Op :=
  match i.entryAt? .valueParts payload with
  | none =>
    .error (.payloadOutOfRange index (.entry .valueParts) payload (i.count .valueParts))
  | some r => do
    let entry ← i.partsEntry r
    let segments ← entry.segments.mapM i.segment
    let name ← i.string entry.name
    pure (.valueParts name segments)

/-- The operation of an instruction, the one numbered `index`. -/
def op (i : Image) (index : Nat) : Instr → Except ImageError Op
  | .tagClose => .ok .tagClose
  | .selfClosing => .ok .selfClosing
  | .entry .tagOpen p => (i.single index .tagOpen p).map .tagOpen
  | .entry .text p => (i.single index .text p).map .text
  | .entry .dynText p => (i.single index .dynText p).map .dynText
  | .entry .staticAttr p => (i.double index .staticAttr p).map fun (n, v) => .staticAttr n v
  | .entry .staticDynAttr p =>
    (i.double index .staticDynAttr p).map fun (n, f) => .staticDynAttr n f
  | .entry .dynStaticAttr p =>
    (i.double index .dynStaticAttr p).map fun (f, v) => .dynStaticAttr f v
  | .entry .dynDynAttr p => (i.double index .dynDynAttr p).map fun (n, v) => .dynDynAttr n v
  | .entry .dynEvent p => (i.double index .dynEvent p).map fun (e, h) => .event e h
  | .entry .valueParts p => i.valueParts index p

/-- The operation of an instruction word, the one numbered `index`. -/
def opOfWord (i : Image) (index : Nat) (w : UInt32) : Except ImageError Op :=
  match Instr.unpack? w with
  | none => .error (.unknownOpcode index (.ofNat w.toNat))
  | some instr => i.op index instr

/-- The operations of words numbered from `index` on, up to the first that does not decode. -/
def decodeFrom (i : Image) : Nat → List UInt32 → Except ImageError (List Op)
  | _, [] => .ok []
  | index, w :: rest => do
    let op ← i.opOfWord index w
    let ops ← i.decodeFrom (index + 1) rest
    pure (op :: ops)

/-- The operations of a template. -/
def decode (i : Image) : Except ImageError (List Op) :=
  i.decodeFrom 0 i.words

end Image

end Stencil.Wire
