import Stencil.Proofs.Wire.Loading

/-!
# Sections written by the layout

A writer is given the sections of an image together with a header. It takes the place of each table
from the layout of the header, fills up with zeros to it, and checks at the end that everything
stands where the layout says. If the counts of the header are the lengths of the sections, the
checks hold, only the first table is moved, and the result is the wire form of the image. A reader
then finds each section again.

## Main definitions

* `Sections`, `Sections.Counted`: sections with a header, and when it counts them
* `Sections.write?`: the bytes of the sections, placed by the layout of the header
* `Sections.Returned`: an image gives back what was written

## Main results

* `Sections.header_image`, `Sections.fits_image`: the header of counted sections is that of their
  image
* `Sections.foldl_addTable`: tables that begin where they should are written back to back
* `Sections.write?_eq`: writing by the layout gives the wire form
* `Sections.load_written`: **the writer and the reader agree on every section**
-/

namespace Stencil.Wire

/-- The sections of an image, with the header that is to be written in front of them. -/
structure Sections where
  header : Header
  instructions : List Instr
  strings : List UInt8
  tables : PerTable (Array StringRef)
  parts : List UInt8
  deriving DecidableEq, Repr

namespace Sections

/-- The counts of the header are the lengths of the sections, and no table ends in half an entry.
The counts are words, so that the lengths fit into words too. -/
structure Counted (s : Sections) : Prop where
  instructions : s.instructions.length = s.header.instructions.toNat
  strings : s.strings.length = s.header.strings.toNat
  tables : ∀ t, (s.tables.get t).size = (s.header.tables.get t).toNat * t.arity
  parts : s.parts.length = s.header.parts.toNat

/-! ## Writing -/

/-- Bytes with zeros behind them up to an offset. -/
def padTo (offset : Nat) (bytes : List UInt8) : List UInt8 :=
  bytes ++ List.replicate (offset - bytes.length) 0

/-- Adds a table at the place that the layout gives it. -/
def addTable (s : Sections) (bytes : List UInt8) (t : Table) : List UInt8 :=
  padTo (s.header.offsets.tables.get t) bytes ++ (s.tables.get t).toList.flatMap StringRef.bytes

/-- What is written before the tables are placed. -/
def start (s : Sections) : List UInt8 :=
  s.header.bytes ++ s.instructions.flatMap (fun i => wordBytes i.pack) ++ s.strings

/-- The bytes of the sections, unless the value parts do not begin, or the whole does not stop,
where the layout says. -/
def write? (s : Sections) : Option (List UInt8) :=
  let tables := Table.all.foldl s.addTable s.start
  let bytes := tables ++ s.parts
  if tables.length = s.header.offsets.parts ∧ bytes.length = s.header.offsets.stop then some bytes
  else none

/-- The image of the sections. -/
def image (s : Sections) : Image where
  words := s.instructions.map Instr.pack
  strings := s.strings
  tables := s.tables
  parts := s.parts

variable {s : Sections}

/-! ## The header of counted sections -/

theorem count_image (hs : s.Counted) (t : Table) :
    s.image.count t = (s.header.tables.get t).toNat := by
  rw [Image.count, image, hs.tables t, Nat.mul_div_cancel _ t.arity_pos]

/-- The counts of an image of counted sections are those of the header. -/
theorem header_image (hs : s.Counted) : s.image.header = s.header := by
  have hinstructions : s.image.header.instructions = s.header.instructions := by
    rw [Image.header, image, List.length_map, hs.instructions, UInt32.ofNat_toNat]
  have hstrings : s.image.header.strings = s.header.strings := by
    rw [Image.header, image, hs.strings, UInt32.ofNat_toNat]
  have htables : s.image.header.tables = s.header.tables := by
    apply PerTable.ext_get
    intro t
    rw [Image.header, PerTable.get_ofFn, count_image hs, UInt32.ofNat_toNat]
  have hparts : s.image.header.parts = s.header.parts := by
    rw [Image.header, image, hs.parts, UInt32.ofNat_toNat]
  exact (Header.mk.injEq ..).mpr ⟨hinstructions, hstrings, htables, hparts⟩

/-- Counted sections make an image whose counts fit. -/
theorem fits_image (hs : s.Counted) : s.image.Fits where
  words := by
    rw [image, List.length_map, hs.instructions]
    exact UInt32.toNat_lt _
  strings := hs.strings ▸ UInt32.toNat_lt _
  tables t := by rw [count_image hs, ← hs.tables t, image]
  counts t := count_image hs t ▸ UInt32.toNat_lt _
  parts := hs.parts ▸ UInt32.toNat_lt _

/-! ## The tables -/

theorem length_padTo {offset : Nat} {bytes : List UInt8} (h : bytes.length ≤ offset) :
    (padTo offset bytes).length = offset := by
  rw [padTo, List.length_append, List.length_replicate]
  omega

theorem padTo_of_le {offset : Nat} {bytes : List UInt8} (h : offset ≤ bytes.length) :
    padTo offset bytes = bytes := by
  rw [padTo, Nat.sub_eq_zero_of_le h, List.replicate_zero, List.append_nil]

/-- A table that begins where it should is written right behind the others. -/
theorem addTable_of_length {bytes : List UInt8} {t : Table}
    (h : bytes.length = s.header.offsets.tables.get t) :
    s.addTable bytes t = bytes ++ s.image.tableData t := by
  rw [addTable, padTo_of_le (Nat.le_of_eq h.symm)]
  rfl

/-- Filling up to a table first makes no difference. -/
theorem addTable_padTo {bytes : List UInt8} {t : Table}
    (h : bytes.length ≤ s.header.offsets.tables.get t) :
    s.addTable (padTo (s.header.offsets.tables.get t) bytes) t = s.addTable bytes t := by
  rw [addTable, addTable, padTo_of_le (Nat.le_of_eq (length_padTo h).symm)]

/-- **Tables that begin where they should** are written back to back. -/
theorem foldl_addTable (hs : s.Counted) {pre post : List Table} (hall : Table.all = pre ++ post)
    {bytes : List UInt8}
    (hbytes : bytes.length = alignUp s.header.stringsStop 4 + s.header.extent pre) :
    post.foldl s.addTable bytes = bytes ++ post.flatMap s.image.tableData := by
  induction post generalizing pre bytes with
  | nil => simp
  | cons t post ih =>
    have hpre : pre = t.before := Table.eq_before_of_split hall
    have hbegins : bytes.length = s.header.offsets.tables.get t := by
      rw [Header.offsets_get, hbytes, hpre]
    have hdata : (s.image.tableData t).length = s.header.tableBytes t := by
      rw [(fits_image hs).length_tableData, header_image hs]
    have hstops : (bytes ++ s.image.tableData t).length
        = alignUp s.header.stringsStop 4 + s.header.extent (pre ++ [t]) := by
      rw [List.length_append, hbytes, hdata, Header.extent_append, Header.extent_cons,
        Header.extent_nil, Nat.add_zero, Nat.add_assoc]
    have hsplit : Table.all = (pre ++ [t]) ++ post := by
      rw [hall, List.append_assoc, List.singleton_append]
    rw [List.foldl_cons, addTable_of_length hbegins, ih hsplit hstops, List.flatMap_cons,
      List.append_assoc]

theorem length_start (hs : s.Counted) : s.start.length = s.header.stringsStop := by
  have hwords := length_flatMap_wordBytes (s.instructions.map Instr.pack)
  rw [List.flatMap_map, List.length_map] at hwords
  rw [start, List.length_append, List.length_append, Header.length_bytes, hwords,
    hs.instructions, hs.strings, Header.stringsStop]

/-- Up to the first table the bytes are filled with the gap of the wire form. -/
theorem padTo_start (hs : s.Counted) :
    padTo (s.header.offsets.tables.get .tagOpen) s.start = s.image.front := by
  have hoffset : s.header.offsets.tables.get .tagOpen = alignUp s.start.length 4 := by
    rw [Header.offsets_get, length_start hs]
    rfl
  have hlength : s.start.length
      = headerSize + 4 * s.image.words.length + s.image.strings.length := by
    rw [length_start hs, ← header_image hs, (fits_image hs).stringsStop_header]
  rw [padTo, hoffset, Image.front, header_image hs, Image.padding, hlength, start]
  simp only [image, List.flatMap_map]

/-- The tables stand behind the gap, back to back. -/
theorem foldl_addTable_start (hs : s.Counted) :
    Table.all.foldl s.addTable s.start
      = s.image.front ++ Table.all.flatMap s.image.tableData := by
  have hle : s.start.length ≤ s.header.offsets.tables.get .tagOpen := by
    rw [length_start hs]
    exact s.header.stringsStop_le_offsets_get .tagOpen
  have hall : Table.all = .tagOpen :: Table.tagOpen.after := rfl
  have hfill : Table.all.foldl s.addTable s.start = Table.all.foldl s.addTable s.image.front := by
    rw [← padTo_start hs, hall, List.foldl_cons, List.foldl_cons, addTable_padTo hle]
  have hsplit : Table.all = [] ++ Table.all := rfl
  rw [hfill]
  apply foldl_addTable hs hsplit
  rw [Image.length_front (fits_image hs), header_image hs, Header.extent_nil, Nat.add_zero]

/-- **Writing by the layout gives the wire form**, and both checks hold. -/
theorem write?_eq (hs : s.Counted) : s.write? = some s.image.bytes := by
  have hparts : (Table.all.foldl s.addTable s.start).length = s.header.offsets.parts := by
    rw [foldl_addTable_start hs, List.length_append, Image.length_front (fits_image hs),
      (fits_image hs).length_flatMap_tableData, header_image hs, Header.offsets_parts]
  have hbytes : Table.all.foldl s.addTable s.start ++ s.parts = s.image.bytes := by
    rw [foldl_addTable_start hs, Image.bytes_eq, image]
  have hstop : (Table.all.foldl s.addTable s.start ++ s.parts).length
      = s.header.offsets.stop := by
    rw [hbytes, Image.length_bytes (fits_image hs), header_image hs]
  rw [write?, if_pos ⟨hparts, hstop⟩, hbytes]

/-! ## Reading -/

/-- An image gives back the sections that were written: their header, instructions, string bytes and
value parts, the references of every entry of every table, and nothing past the last entry. -/
structure Returned (s : Sections) (i : Image) : Prop where
  header : i.header = s.header
  instructions : i.words.map Instr.unpack? = s.instructions.map some
  strings : i.strings = s.strings
  parts : i.parts = s.parts
  entry : ∀ t index, index < (s.header.tables.get t).toNat →
    ∃ r, (s.tables.get t)[index * t.arity]? = some r ∧ i.entryAt? t index = some r
  pair : ∀ t index, t.arity = 2 → index < (s.header.tables.get t).toNat →
    ∃ a b, (s.tables.get t)[index * 2]? = some a ∧ (s.tables.get t)[index * 2 + 1]? = some b ∧
      i.pair? t index = some (a, b)
  entry_past : ∀ t index, (s.header.tables.get t).toNat ≤ index → i.entryAt? t index = none
  pair_past : ∀ t index, t.arity ≠ 2 ∨ (s.header.tables.get t).toNat ≤ index →
    i.pair? t index = none

/-- The image of counted sections gives them back. -/
theorem returned_image (hs : s.Counted) : s.Returned s.image where
  header := header_image hs
  instructions := by
    rw [image, List.map_map]
    exact List.map_congr_left fun i _ => i.unpack?_pack
  strings := rfl
  parts := rfl
  entry t index h := by
    have hsome := (Image.entryAt?_isSome_iff (i := s.image) (hs.tables t) index).mpr h
    obtain ⟨r, hr⟩ := Option.isSome_iff_exists.mp hsome
    exact ⟨r, hr, hr⟩
  pair t index ht h := by
    have hsize := hs.tables t
    rw [ht] at hsize
    have hfirst : index * 2 < (s.tables.get t).size := by omega
    have hsecond : index * 2 + 1 < (s.tables.get t).size := by omega
    refine ⟨_, _, Array.getElem?_eq_getElem hfirst, Array.getElem?_eq_getElem hsecond, ?_⟩
    simp only [Image.pair?, image, if_pos ht, Array.getElem?_eq_getElem hfirst,
      Array.getElem?_eq_getElem hsecond]
  entry_past t index h := by
    rw [← Option.not_isSome_iff_eq_none, Image.entryAt?_isSome_iff (hs.tables t)]
    omega
  pair_past t index h := by
    rw [← Option.not_isSome_iff_eq_none, Image.pair?_isSome_iff (hs.tables t)]
    omega

/-- **The writer and the reader agree on every section.** Sections whose header counts them are
written as header, instruction words, string bytes, up to three zeros to the next multiple of four,
the tables in their order and the value parts, in as many bytes as the layout asks for. Each part
stands where the layout says, and reading gives back the header and all sections. -/
theorem load_written (hs : s.Counted) :
    ∃ bytes gap, s.write? = some bytes ∧ s.image.bytes = bytes ∧
      bytes = s.header.bytes ++ s.instructions.flatMap (fun i => wordBytes i.pack) ++ s.strings
        ++ List.replicate gap 0
        ++ Table.all.flatMap (fun t => (s.tables.get t).toList.flatMap StringRef.bytes)
        ++ s.parts ∧
      gap < 4 ∧ (headerSize + 4 * s.instructions.length + s.strings.length + gap) % 4 = 0 ∧
      bytes.length = s.header.offsets.stop ∧ Header.ofBytes? bytes = some s.header ∧
      ∃ i, Image.load bytes = .ok i ∧ s.Returned i := by
  obtain ⟨stop, hstop⟩ :
      ∃ stop, stop = headerSize + 4 * s.instructions.length + s.strings.length := ⟨_, rfl⟩
  have halign := alignUp_four stop
  refine ⟨s.image.bytes, alignUp stop 4 - stop, write?_eq hs, rfl, ?_, ?_, ?_, ?_, ?_, s.image,
    Image.load_bytes (fits_image hs), returned_image hs⟩
  · rw [Image.bytes_eq, Image.front, header_image hs, Image.padding, hstop]
    simp only [image, List.flatMap_map, List.length_map]
    rfl
  · omega
  · omega
  · rw [Image.length_bytes (fits_image hs), header_image hs]
  · rw [Image.bytes_eq, Image.front, header_image hs]
    simp only [List.append_assoc, Header.ofBytes?_bytes_append]

/-- An element with an attribute and one whose value has a segment. Its three string bytes leave a
gap of one. -/
def twoAttributes : Sections where
  header :=
    { instructions := 4
      strings := 3
      tables := (((PerTable.fill 0).set .tagOpen 1).set .staticAttr 1).set .valueParts 1
      parts := 24 }
  instructions :=
    [.entry .tagOpen ⟨0, by decide⟩, .entry .staticAttr ⟨0, by decide⟩,
      .entry .valueParts ⟨0, by decide⟩, .tagClose]
  strings := [112, 104, 105]
  tables :=
    (((PerTable.fill #[]).set .tagOpen #[⟨0, 1⟩]).set .staticAttr #[⟨0, 1⟩, ⟨1, 2⟩]).set
      .valueParts #[⟨0, 24⟩]
  parts := (PartsEntry.mk ⟨0, 1⟩ [⟨.dynamic, ⟨1, 2⟩⟩]).bytes

/-- The sections of an element with two attributes are counted, written and read back. -/
theorem load_written_two_attributes :
    twoAttributes.Counted ∧ ∃ bytes i, twoAttributes.write? = some bytes ∧ bytes.length = 124 ∧
      Image.load bytes = .ok i ∧ i.pair? .staticAttr 0 = some (⟨0, 1⟩, ⟨1, 2⟩) ∧
      i.pair? .staticAttr 1 = none ∧ i.pair? .valueParts 0 = none ∧
      i.parts = (PartsEntry.mk ⟨0, 1⟩ [⟨.dynamic, ⟨1, 2⟩⟩]).bytes := by
  have hcounted : twoAttributes.Counted :=
    ⟨rfl, rfl, fun t => by cases t <;> rfl, rfl⟩
  obtain ⟨bytes, gap, hwrite, -, -, -, -, hlength, -, i, hload, hreturned⟩ := load_written hcounted
  obtain ⟨a, b, ha, hb, hpair⟩ := hreturned.pair .staticAttr 0 rfl (by decide)
  obtain rfl : (⟨0, 1⟩ : StringRef) = a := Option.some.inj ha
  obtain rfl : (⟨1, 2⟩ : StringRef) = b := Option.some.inj hb
  exact ⟨hcounted, bytes, i, hwrite, hlength, hload, hpair,
    hreturned.pair_past .staticAttr 1 (by decide), hreturned.pair_past .valueParts 0 (by decide),
    hreturned.parts⟩

end Sections

end Stencil.Wire
