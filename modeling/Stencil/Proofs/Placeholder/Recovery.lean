import Stencil.Proofs.Placeholder.Segmentation

/-!
# The attribute behind a binding

An attribute with a literal name can be read back from its binding, unless it is an event. A literal
value and the segments of a mixed one are there as they were. A single field is the value between
the braces that were taken off, or the whole value if it has no placeholder; the closing brace tells
which, since the field of a placeholder has none and a value that counts as dynamic has one.

## Main definitions

* `Binding.KeepsName`: the attributes that can be read back, whose binding holds their name
* `Binding.source?`: the name and the value that a binding was made from

## Main results

* `Binding.source?_classify`: a binding gives its attribute back
* `Binding.classify_eq_iff`: **attributes with literal names that are bound alike are the same**
-/

namespace Stencil.Binding

open Stencil.Placeholder

/-- An attribute whose binding holds its name: the name is literal, and it is no event. -/
structure KeepsName (name value : String) : Prop where
  literal : isDynamic name = false
  event : ¬ (isEventName name = true ∧ isDynamic value = true)

/-- The name and the value that a binding with a literal name was made from. -/
def source? : Binding → Option (String × String)
  | event _ _ | dynDyn _ _ | dynStatic _ _ => none
  | parts name segments => some (name, String.ofList (segments.flatMap Segment.write))
  | staticDyn name field =>
    some (name, if '}' ∈ field.toList then field
      else String.ofList (Segment.dynamic field).write)
  | static name value => some (name, value)

/-- A dynamic value is read back from its binding. -/
theorem source?_ofValue (name : String) {value : String} (h : isDynamic value = true) :
    (ofValue name value).source? = some (name, value) := by
  obtain ⟨hdecomposes, -⟩ := decomposes_valueSegments_iff.mpr (rfl : valueSegments value = _)
  have hclose : '}' ∈ value.toList := (isDynamic_iff.mp h).2
  -- Without a field among the segments, the whole value stands for its field.
  have hwhole : (valueSegments value).findSome? Segment.field? = none →
      (staticDyn name (fieldName value)).source? = some (name, value) := by
    intro hnone
    rw [fieldName_eq, hnone, Option.getD_none, source?, if_pos hclose]
  unfold ofValue
  match hsegments : valueSegments value with
  | first :: second :: rest =>
    have hwrite := hdecomposes.write
    rw [hsegments] at hwrite
    simp only [source?, hwrite, String.ofList_toList]
  | [] => exact hwhole (by rw [hsegments]; rfl)
  | [.static t] => exact hwhole (by rw [hsegments]; rfl)
  | [.dynamic f] =>
    rw [hsegments] at hdecomposes
    have hwrite : (Segment.dynamic f).write = value.toList := by simpa using hdecomposes.write
    have hfield : fieldName value = f := by
      rw [fieldName_eq, hsegments]
      rfl
    have hnotMem := (hdecomposes.fields f (List.mem_singleton_self _)).2
    simp only [source?, hfield, if_neg hnotMem, hwrite, String.ofList_toList]

/-- **A binding gives its attribute back**, if that has a literal name and is no event. -/
theorem source?_classify {name value : String} (h : KeepsName name value) :
    (classify name value).source? = some (name, value) := by
  have hevent : (isEventName name && isDynamic value) = false := by
    rw [← Bool.not_eq_true, Bool.and_eq_true]
    exact h.event
  unfold classify
  rw [hevent, h.literal, if_neg Bool.false_ne_true]
  cases hvalue : isDynamic value with
  | true => exact source?_ofValue name hvalue
  | false => rfl

/-- **Attributes with literal names that are bound alike are the same.** The name and the value of
an attribute that is no event are not mixed up with those of another one, whether the value is
literal, a field, several segments or a text with crossed braces. -/
theorem classify_eq_iff {name₁ value₁ name₂ value₂ : String}
    (h₁ : KeepsName name₁ value₁) (h₂ : KeepsName name₂ value₂) :
    classify name₁ value₁ = classify name₂ value₂ ↔ name₁ = name₂ ∧ value₁ = value₂ := by
  constructor
  · intro h
    have hsource := congrArg source? h
    rw [source?_classify h₁, source?_classify h₂, Option.some.injEq, Prod.mk.injEq] at hsource
    exact hsource
  · rintro ⟨rfl, rfl⟩
    rfl

/-- A field, and a text with crossed braces that is its own field: the bindings of both carry one
text, and it differs. -/
theorem classify_eq_iff_crossed_braces :
    classify "title" "\x7ba\x7bb\x7d" = .staticDyn "title" "a\x7bb" ∧
      classify "title" "\x7da\x7bb" = .staticDyn "title" "\x7da\x7bb" ∧
      classify "title" "\x7ba\x7bb\x7d" ≠ classify "title" "\x7da\x7bb" := by
  refine ⟨by decide +kernel, by decide +kernel, fun h => ?_⟩
  have hsame := (classify_eq_iff ⟨by decide +kernel, by decide +kernel⟩
    ⟨by decide +kernel, by decide +kernel⟩).mp h
  exact absurd hsame.2 (by decide)

end Stencil.Binding
