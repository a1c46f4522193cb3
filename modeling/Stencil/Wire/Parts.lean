import Stencil.Segment
import Stencil.Wire.Error

/-!
# The block of value parts

An attribute whose value mixes literal text and fields is an entry of variable size: the name, the
number of segments, and for each segment its kind and its text. Entries stand back to back.

## Main definitions

* `PartsEntry`, `PartsEntry.bytes`: an entry and its wire form
* `PartsEntry.ofBytes`: the entry that a byte string is

## Main results

* `PartsEntry.length_bytes`: the size of an entry
-/

namespace Stencil.Wire

/-- A segment whose text is interned. -/
structure SegmentRef where
  kind : SegmentKind
  value : StringRef
  deriving DecidableEq, Repr

/-- The number of a segment kind on the wire. -/
def kindCode : SegmentKind → UInt32
  | .static => 0
  | .dynamic => 1

/-- The segment kind with a number. -/
def kindOfCode? (n : UInt32) : Option SegmentKind :=
  if n = 0 then some .static else if n = 1 then some .dynamic else none

@[simp] theorem kindOfCode?_kindCode (k : SegmentKind) : kindOfCode? (kindCode k) = some k := by
  cases k <;> rfl

/-- The wire form of a segment: its kind, then its text. -/
def SegmentRef.bytes (s : SegmentRef) : List UInt8 :=
  wordBytes (kindCode s.kind) ++ s.value.bytes

/-- An attribute with the segments of its value. -/
structure PartsEntry where
  name : StringRef
  segments : List SegmentRef
  deriving DecidableEq, Repr

namespace PartsEntry

/-- The number of bytes of an entry with `n` segments. -/
def size (n : Nat) : Nat :=
  12 + 12 * n

/-- The wire form: the name, the number of segments, the segments. -/
def bytes (e : PartsEntry) : List UInt8 :=
  e.name.bytes ++ wordBytes (.ofNat e.segments.length) ++ e.segments.flatMap SegmentRef.bytes

theorem length_flatMap_segments (l : List SegmentRef) :
    (l.flatMap SegmentRef.bytes).length = 12 * l.length := by
  induction l with
  | nil => rfl
  | cons s l ih =>
    simp only [List.flatMap_cons, List.length_append, ih, List.length_cons, SegmentRef.bytes,
      length_wordBytes, StringRef.length_bytes]
    omega

@[simp] theorem length_bytes (e : PartsEntry) : e.bytes.length = size e.segments.length := by
  simp only [bytes, List.length_append, StringRef.length_bytes, length_wordBytes,
    length_flatMap_segments, size]

/-- The segments that a sequence of words holds. -/
def segmentsOfWords : List UInt32 → Except ImageError (List SegmentRef)
  | kind :: offset :: length :: rest =>
    match kindOfCode? kind with
    | none => .error (.unknownSegmentKind kind)
    | some k => (segmentsOfWords rest).map (⟨k, ⟨offset, length⟩⟩ :: ·)
  | _ => .ok []

/-- The entry that a byte string is. Its size has to be the one that its count asks for. -/
def ofBytes (bytes : List UInt8) : Except ImageError PartsEntry :=
  match words bytes with
  | offset :: length :: count :: rest =>
    if bytes.length = size count.toNat then
      (segmentsOfWords rest).map (⟨⟨offset, length⟩, ·⟩)
    else .error (.malformedParts (size count.toNat) bytes.length)
  | _ => .error (.malformedParts (if bytes.length < 8 then 8 else 12) bytes.length)

end PartsEntry

end Stencil.Wire
