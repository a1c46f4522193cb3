import Stencil.Wire.Word

/-!
# References into a byte table

A string of an image is named by where its bytes begin in the string table and how many they are.
A reference owns nothing and may point anywhere; whoever follows it asks whether it lies inside
the table.

## Main definitions

* `StringRef`: offset and length
* `StringRef.range?`, `StringRef.slice?`: the bytes a reference names, if it lies inside
* `StringRef.bytes`, `stringRefs`: the wire form, two words
-/

namespace Stencil.Wire

/-- An offset into a byte table and a length. -/
structure StringRef where
  offset : UInt32
  length : UInt32
  deriving DecidableEq, Repr

namespace StringRef

/-- One past the last byte. -/
def stop (r : StringRef) : Nat :=
  r.offset.toNat + r.length.toNat

/-- First and one past the last byte, if the reference lies inside a table of `size` bytes. -/
def range? (r : StringRef) (size : Nat) : Option (Nat × Nat) :=
  if r.stop ≤ size then some (r.offset.toNat, r.stop) else none

/-- The bytes that a reference names, if it lies inside the table. -/
def slice? (r : StringRef) (table : List UInt8) : Option (List UInt8) :=
  if r.stop ≤ table.length then some ((table.drop r.offset.toNat).take r.length.toNat) else none

/-- The wire form: offset, then length. -/
def bytes (r : StringRef) : List UInt8 :=
  wordBytes r.offset ++ wordBytes r.length

@[simp] theorem length_bytes (r : StringRef) : r.bytes.length = 8 := rfl

/-- The references that a sequence of words holds, a last single word left out. -/
def ofWords : List UInt32 → List StringRef
  | offset :: length :: rest => ⟨offset, length⟩ :: ofWords rest
  | _ => []

end StringRef

/-- The references that a byte string holds. -/
def stringRefs (bytes : List UInt8) : List StringRef :=
  StringRef.ofWords (words bytes)

@[simp] theorem stringRefs_bytes_append (r : StringRef) (rest : List UInt8) :
    stringRefs (r.bytes ++ rest) = r :: stringRefs rest := by
  simp [stringRefs, StringRef.bytes, StringRef.ofWords]

/-- References written back to back are read back. -/
theorem stringRefs_flatMap_bytes (rs : List StringRef) :
    stringRefs (rs.flatMap StringRef.bytes) = rs := by
  induction rs with
  | nil => rfl
  | cons r rs ih => simp [ih]

end Stencil.Wire
