import Stencil.Proofs.Wire.Interning
import Stencil.Proofs.Wire.Layout

/-!
# Reading an image back

The wire form of an image is its sections back to back, with a gap in front of the tables. The
layout that a reader computes from the counts finds each section where it was written, so that
reading is the inverse of writing.

## Main definitions

* `Image.Fits`: the counts of an image fit into its header

## Main results

* `Image.length_bytes`: the size of a written image is the one that its header asks for
* `Image.load_bytes`: a written image is read back
-/

namespace Stencil.Wire

/-- Words written back to back are read back. -/
theorem words_flatMap_wordBytes (ws : List UInt32) : words (ws.flatMap wordBytes) = ws := by
  induction ws with
  | nil => rfl
  | cons w ws ih => simp [ih]

theorem length_flatMap_wordBytes (ws : List UInt32) :
    (ws.flatMap wordBytes).length = ws.length * 4 := by
  induction ws with
  | nil => rfl
  | cons w ws ih =>
    simp only [List.flatMap_cons, List.length_append, length_wordBytes, ih, List.length_cons]
    omega

theorem length_flatMap_bytes (rs : List StringRef) :
    (rs.flatMap StringRef.bytes).length = rs.length * 8 := by
  induction rs with
  | nil => rfl
  | cons r rs ih =>
    simp only [List.flatMap_cons, List.length_append, StringRef.length_bytes, ih,
      List.length_cons]
    omega

namespace Image

/-- A section is found behind what stands in front of it. -/
theorem span_of_isPrefix (front : List UInt8) {data bytes : List UInt8} {start stop : Nat}
    (hp : front ++ data <+: bytes) (hstart : start = front.length)
    (hstop : stop = start + data.length) : span bytes start stop = data := by
  obtain ⟨behind, rfl⟩ := hp
  subst hstart hstop
  rw [span, List.append_assoc, List.drop_left, Nat.add_sub_cancel_left, List.take_left]

/-- The counts of an image fit into its header, and tables have no half entries. -/
structure Fits (i : Image) : Prop where
  words : i.words.length < wordLimit
  strings : i.strings.length < wordLimit
  tables : ∀ t, (i.tables.get t).size = i.count t * t.arity
  counts : ∀ t, i.count t < wordLimit
  parts : i.parts.length < wordLimit

/-- The wire form of a table. -/
def tableData (i : Image) (t : Table) : List UInt8 :=
  (i.tables.get t).toList.flatMap StringRef.bytes

/-- What stands in front of the tables, the gap included. -/
def front (i : Image) : List UInt8 :=
  i.header.bytes ++ i.words.flatMap wordBytes ++ i.strings
    ++ padding (headerSize + 4 * i.words.length + i.strings.length)

theorem bytes_eq (i : Image) :
    i.bytes = i.front ++ Table.all.flatMap i.tableData ++ i.parts := by
  rw [bytes, PerTable.toList, List.flatMap_map]
  rfl

variable {i : Image}

namespace Fits

theorem toNat_instructions (hi : i.Fits) : i.header.instructions.toNat = i.words.length :=
  toNat_ofNat_of_lt hi.words

theorem toNat_strings (hi : i.Fits) : i.header.strings.toNat = i.strings.length :=
  toNat_ofNat_of_lt hi.strings

theorem toNat_parts (hi : i.Fits) : i.header.parts.toNat = i.parts.length :=
  toNat_ofNat_of_lt hi.parts

theorem toNat_tables (hi : i.Fits) (t : Table) : (i.header.tables.get t).toNat = i.count t := by
  rw [header, PerTable.get_ofFn, toNat_ofNat_of_lt (hi.counts t)]

theorem length_tableData (hi : i.Fits) (t : Table) :
    (i.tableData t).length = i.header.tableBytes t := by
  rw [tableData, length_flatMap_bytes, Array.length_toList, hi.tables t, Header.tableBytes,
    hi.toNat_tables, Table.entrySize, Nat.mul_assoc]

theorem length_flatMap_tableData (hi : i.Fits) (ts : List Table) :
    (ts.flatMap i.tableData).length = i.header.extent ts := by
  induction ts with
  | nil => rfl
  | cons t ts ih =>
    rw [List.flatMap_cons, List.length_append, hi.length_tableData, ih, Header.extent_cons]

theorem stringsStop_header (hi : i.Fits) :
    i.header.stringsStop = headerSize + 4 * i.words.length + i.strings.length := by
  rw [Header.stringsStop, hi.toNat_instructions, hi.toNat_strings, Nat.mul_comm]

end Fits

theorem length_padding (n : Nat) : n + (padding n).length = alignUp n 4 := by
  rw [padding, List.length_replicate, alignUp_four]
  omega

/-- What stands in front of the tables reaches to the first of them. -/
theorem length_front (hi : i.Fits) :
    i.front.length = alignUp i.header.stringsStop 4 := by
  rw [hi.stringsStop_header, ← length_padding]
  simp only [front, List.length_append, Header.length_bytes, length_flatMap_wordBytes]
  omega

/-- The size of a written image is the one that its header asks for. -/
theorem length_bytes (hi : i.Fits) : i.bytes.length = i.header.offsets.stop := by
  rw [bytes_eq, List.length_append, List.length_append, length_front hi,
    hi.length_flatMap_tableData, Header.offsets_stop, Header.offsets_parts, hi.toNat_parts]

theorem span_words (hi : i.Fits) :
    span i.bytes i.header.offsets.instructions i.header.offsets.strings
      = i.words.flatMap wordBytes := by
  refine span_of_isPrefix i.header.bytes ?_ ?_ ?_
  · rw [bytes_eq, front]
    simp only [List.append_assoc, List.prefix_append_right_inj, List.prefix_append]
  · rw [Header.length_bytes, Header.offsets_instructions]
  · rw [Header.offsets_strings, Header.offsets_instructions, length_flatMap_wordBytes,
      hi.toNat_instructions]

theorem span_strings (hi : i.Fits) :
    span i.bytes i.header.offsets.strings
      (i.header.offsets.strings + i.header.strings.toNat) = i.strings := by
  refine span_of_isPrefix (i.header.bytes ++ i.words.flatMap wordBytes) ?_ ?_ ?_
  · rw [bytes_eq, front]
    simp only [List.append_assoc, List.prefix_append_right_inj, List.prefix_append]
  · rw [List.length_append, Header.length_bytes, length_flatMap_wordBytes,
      Header.offsets_strings, hi.toNat_instructions]
  · rw [hi.toNat_strings]

theorem span_table (hi : i.Fits) (t : Table) :
    span i.bytes (i.header.offsets.tables.get t)
      (i.header.offsets.tables.get t + i.header.tableBytes t) = i.tableData t := by
  refine span_of_isPrefix (i.front ++ t.before.flatMap i.tableData) ?_ ?_ ?_
  · rw [bytes_eq, ← t.before_append_after, List.flatMap_append, List.flatMap_cons]
    simp only [List.append_assoc, List.prefix_append_right_inj, List.prefix_append]
  · rw [List.length_append, length_front hi, hi.length_flatMap_tableData, Header.offsets_get]
  · rw [hi.length_tableData]

theorem span_parts (hi : i.Fits) :
    span i.bytes i.header.offsets.parts i.header.offsets.stop = i.parts := by
  refine span_of_isPrefix (i.front ++ Table.all.flatMap i.tableData) ?_ ?_ ?_
  · exact (bytes_eq i).symm ▸ List.prefix_rfl
  · rw [List.length_append, length_front hi, hi.length_flatMap_tableData, Header.offsets_parts]
  · rw [Header.offsets_stop, hi.toNat_parts]

/-- **A written image is read back.** -/
theorem load_bytes (hi : i.Fits) : load i.bytes = .ok i := by
  refine load_eq_ok_iff.mpr ⟨i.header, ?_, (length_bytes hi).symm, ?_⟩
  · rw [← Header.ofBytes?_eq_some_iff, bytes_eq, front]
    simp only [List.append_assoc, Header.ofBytes?_bytes_append]
  · have htables : i.tables = .ofFn fun t => (stringRefs (i.tableData t)).toArray := by
      apply PerTable.ext_get
      intro t
      rw [PerTable.get_ofFn, tableData, stringRefs_flatMap_bytes, Array.toArray_toList]
    simp only [ofSections, span_words hi, span_strings hi, span_table hi, span_parts hi,
      words_flatMap_wordBytes, ← htables]

end Image

end Stencil.Wire
