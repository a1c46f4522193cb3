import Stencil.Wire.Instruction

/-!
# Limits of an image

Why a template does not fit into an image.

## Main definitions

* `CompileError`, `CompileError.message`: the causes and their wording
-/

namespace Stencil

/-- Why a template does not fit into an image. -/
inductive CompileError where
  /-- A table would have `size` entries, of which it may have only `max`. -/
  | tableFull (opcode : Wire.Opcode) (size max : Nat)
  /-- The strings would have so many bytes. -/
  | stringsFull (size : Nat)
  /-- The block of value parts would have so many bytes. -/
  | partsFull (size : Nat)
  /-- There would be so many instructions. -/
  | instructionsFull (size : Nat)
  deriving DecidableEq, Repr

/-- The wording of a cause. -/
def CompileError.message : CompileError → String
  | tableFull opcode size max =>
    s!"template too large: {opcode.name} table would hold {size} entries (max {max})"
  | stringsFull size => s!"string table overflow: {size} bytes (max 4294967295)"
  | partsFull size => s!"template too large: attribute parts sub-block would be {size} bytes"
  | instructionsFull size => s!"template too large: {size} instructions"

end Stencil
