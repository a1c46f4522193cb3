import Mathlib.Data.List.Basic
import Stencil.Proofs.Wire.Interning
import Stencil.Wire.Parts

/-!
# Reading an entry of the block of value parts

An entry is a name, a count and that many segments, all in words. A reader counts the words of the
entry against its count before it takes them apart, and finds what was written.

## Main results

* `PartsEntry.ofBytes_bytes`: a written entry is read back
-/

namespace Stencil.Wire

@[simp] theorem words_bytes_append (r : StringRef) (rest : List UInt8) :
    words (r.bytes ++ rest) = r.offset :: r.length :: words rest := by
  rw [StringRef.bytes, List.append_assoc, words_wordBytes_append, words_wordBytes_append]

@[simp] theorem words_segmentBytes_append (s : SegmentRef) (rest : List UInt8) :
    words (s.bytes ++ rest)
      = kindCode s.kind :: s.value.offset :: s.value.length :: words rest := by
  rw [SegmentRef.bytes, List.append_assoc, words_wordBytes_append, words_bytes_append]

namespace PartsEntry

/-- Segments written back to back are read back. -/
theorem segmentsOfWords_flatMap_bytes (l : List SegmentRef) :
    segmentsOfWords (words (l.flatMap SegmentRef.bytes)) = .ok l := by
  induction l with
  | nil => rfl
  | cons s l ih =>
    rw [List.flatMap_cons, words_segmentBytes_append, segmentsOfWords, kindOfCode?_kindCode]
    simp only [ih]
    rfl

theorem words_bytes (e : PartsEntry) :
    words e.bytes = e.name.offset :: e.name.length :: .ofNat e.segments.length
      :: words (e.segments.flatMap SegmentRef.bytes) := by
  rw [bytes, List.append_assoc, words_bytes_append, words_wordBytes_append]

/-- **A written entry is read back**, if its segments can be counted in a word. -/
theorem ofBytes_bytes {e : PartsEntry} (h : e.segments.length < wordLimit) :
    ofBytes e.bytes = .ok e := by
  rw [ofBytes, words_bytes]
  simp only [toNat_ofNat_of_lt h, length_bytes, if_pos, segmentsOfWords_flatMap_bytes]
  rfl

end PartsEntry

end Stencil.Wire
