import Stencil.Wire.Instruction
import Stencil.Wire.Word

/-!
# Headers and layout

An image begins with twelve counts. Where each section begins follows from the counts alone: the
instruction words, the string bytes, the nine tables, each at a multiple of four, and the block of
value parts.

## Main definitions

* `Header`, `Header.bytes`, `Header.ofBytes?`: the counts and their wire form
* `Offsets`, `Header.offsets`: where the sections begin

## Main results

* `alignUp_four`: aligning to words rounds up
* `Header.ofBytes?_bytes_append`: a written header is read back
-/

namespace Stencil.Wire

/-- The counts of an image: instructions, string bytes, entries of each table, and bytes of the
block of value parts. -/
structure Header where
  instructions : UInt32 := 0
  strings : UInt32 := 0
  tables : PerTable UInt32 := .fill 0
  parts : UInt32 := 0
  deriving DecidableEq, Repr

/-- The number of bytes of a header. -/
def headerSize : Nat := 48

/-- Where the sections of an image begin, and where it stops. -/
structure Offsets where
  instructions : Nat
  strings : Nat
  tables : PerTable Nat
  parts : Nat
  stop : Nat
  deriving DecidableEq, Repr

/-- A value raised by `align - 1`, without the bits that `align - 1` has. If `align` is a power of
two this is the least multiple of `align` that is not below the value. -/
def alignUp (value align : Nat) : Nat :=
  let raised := value + (align - 1)
  raised - (raised &&& (align - 1))

/-- Aligning to words rounds up to a multiple of four. -/
theorem alignUp_four (value : Nat) : alignUp value 4 = (value + 3) / 4 * 4 := by
  have h : (value + 3) &&& 3 = (value + 3) % 4 := Nat.and_two_pow_sub_one_eq_mod (value + 3) 2
  have ha : alignUp value 4 = value + 3 - ((value + 3) &&& 3) := rfl
  omega

namespace Header

/-- The counts in the order of the wire. -/
def fields (h : Header) : List UInt32 :=
  h.instructions :: h.strings :: (h.tables.toList ++ [h.parts])

/-- The wire form. -/
def bytes (h : Header) : List UInt8 :=
  h.fields.flatMap wordBytes

/-- The header with the given counts, if they are twelve. -/
def ofFields? : List UInt32 → Option Header
  | [n, s, t0, t1, t2, t3, t4, t5, t6, t7, t8, p] =>
    some ⟨n, s, ⟨t0, t1, t2, t3, t4, t5, t6, t7, t8⟩, p⟩
  | _ => none

/-- The header at the front of a byte string, if that is long enough. -/
def ofBytes? (bytes : List UInt8) : Option Header :=
  ofFields? (words (bytes.take headerSize))

@[simp] theorem length_bytes (h : Header) : h.bytes.length = headerSize := rfl

/-- **A written header is read back**, whatever follows it. -/
@[simp] theorem ofBytes?_bytes_append (h : Header) (rest : List UInt8) :
    ofBytes? (h.bytes ++ rest) = some h := by
  have hw : words h.bytes = h.fields := by
    simp only [bytes, fields, PerTable.toList, Table.all, List.map_cons, List.map_nil,
      List.flatMap_cons, List.cons_append, List.nil_append, List.flatMap_nil]
    simp only [words_wordBytes_append]
    rfl
  rw [ofBytes?, List.take_append_of_le_length (by simp), List.take_of_length_le (by simp), hw]
  rfl

/-- Places the tables one behind the other from `cursor` on. -/
def placeTables (h : Header) (cursor : Nat) : PerTable Nat × Nat :=
  Table.all.foldl
    (fun (starts, cursor) t =>
      -- Entries are whole words, so only the first table can be moved by this.
      let start := alignUp cursor 4
      (starts.set t start, start + (h.tables.get t).toNat * t.entrySize))
    (.fill 0, cursor)

/-- Where the sections of an image with these counts begin. -/
def offsets (h : Header) : Offsets :=
  let strings := headerSize + h.instructions.toNat * 4
  let (tables, parts) := h.placeTables (strings + h.strings.toNat)
  { instructions := headerSize, strings, tables, parts, stop := parts + h.parts.toNat }

end Header

end Stencil.Wire
