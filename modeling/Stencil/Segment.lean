/-!
# Segments

A text that mixes literal parts and placeholders is a list of segments. A literal segment stands
for itself and a dynamic one for the value of a field.
-/

namespace Stencil

/-- Whether a segment is literal or names a field. -/
inductive SegmentKind where
  | static
  | dynamic
  deriving DecidableEq, Repr

/-- A literal part of a text, or the name of a field whose value stands there. -/
inductive Segment where
  | static (text : String)
  | dynamic (field : String)
  deriving DecidableEq, Repr

namespace Segment

/-- Whether a segment is literal or names a field. -/
def kind : Segment → SegmentKind
  | static _ => .static
  | dynamic _ => .dynamic

/-- The literal text, or the name of the field. -/
def text : Segment → String
  | static s => s
  | dynamic s => s

/-- The segment of a kind with a text. -/
def ofKind : SegmentKind → String → Segment
  | .static, s => static s
  | .dynamic, s => dynamic s

@[simp] theorem ofKind_kind_text (s : Segment) : ofKind s.kind s.text = s := by
  cases s <;> rfl

end Segment

end Stencil
