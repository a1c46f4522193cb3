import Stencil.File
import Stencil.Wire.Instruction
import Stencil.Wire.StringRef

/-!
# Faults of an image

Why a byte string is not an image, or an image does not decode.

## Main definitions

* `ImageError`: the causes
* `ImageError.message`: their wording
-/

namespace Stencil.Wire

/-- Why a byte string is not an image, or an image does not decode. -/
inductive ImageError where
  /-- Fewer bytes than a header has. -/
  | tooSmall (size : Nat)
  /-- The counts of the header ask for another size. -/
  | sizeMismatch (expected actual : Nat)
  /-- An instruction with an opcode that does not exist. -/
  | unknownOpcode (index : Nat) (opcode : UInt8)
  /-- An instruction that names an entry behind the end of its table. -/
  | payloadOutOfRange (index : Nat) (opcode : Opcode) (payload count : Nat)
  /-- A reference that leaves its byte table. -/
  | stringOutOfRange (ref : StringRef) (size : Nat)
  /-- A reference to bytes that are no text. -/
  | invalidText (ref : StringRef)
  /-- A segment that is neither literal nor dynamic. -/
  | unknownSegmentKind (kind : UInt32)
  /-- An entry of the block of value parts whose size and count disagree. -/
  | malformedParts (expected actual : Nat)
  /-- The file of the image could not be read. -/
  | unreadable (fault : FileFault)
  deriving DecidableEq, Repr

/-- The wording of a fault. -/
def ImageError.message : ImageError → String
  | tooSmall size => s!"buffer too small: {size} bytes (minimum 48)"
  | sizeMismatch expected actual =>
    s!"size mismatch: header implies {expected} bytes, got {actual}"
  | unknownOpcode index opcode => s!"instruction {index}: unknown opcode {opcode.toNat}"
  | payloadOutOfRange index opcode payload count =>
    s!"instruction {index}: {opcode.name} payload {payload} out of range (table has {count})"
  | stringOutOfRange ref size =>
    s!"string ref {ref.offset.toNat}+{ref.length.toNat} outside table of {size} bytes"
  | invalidText ref => s!"string ref {ref.offset.toNat}+{ref.length.toNat} is not valid UTF-8"
  | unknownSegmentKind kind => s!"unknown segment kind {kind.toNat}"
  | malformedParts expected actual =>
    s!"malformed parts entry: expected {expected} bytes, got {actual}"
  | unreadable fault => s!"io error: {fault.message}"

end Stencil.Wire
