/-!
# Spans

A span is a range of byte offsets into a source.
-/

namespace Stencil

/-- The bytes from `start` up to `stop`. -/
structure Span where
  start : Nat := 0
  stop : Nat := 0
  deriving DecidableEq, Repr

/-- The least span that holds both. -/
def Span.cover (a b : Span) : Span :=
  ⟨min a.start b.start, max a.stop b.stop⟩

end Stencil
