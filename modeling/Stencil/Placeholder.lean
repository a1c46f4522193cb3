import Stencil.Segment
import Stencil.Text.Blank

/-!
# Placeholders

A placeholder is a brace, one or more characters other than a closing brace, and a closing brace.
It stands for the value of the field that it names. Placeholders are found from the left and do
not overlap; what lies between them is literal, braces that belong to no placeholder included.

## Main definitions

* `front?`: the placeholder at the front of a text
* `valueSegments`, `textSegments`: a text as segments, without its blank literals or with them
* `fieldName`: the first field of a text, or the text itself
* `isDynamic`, `hasUnmatchedBrace`: quick and exact tests for braces

## Main results

* `front?_eq_some`: what a placeholder at the front looks like
* `segmentsOf_of_front?_eq_none`: the segments of a text without placeholders
-/

namespace Stencil.Placeholder

open Stencil.Text

/-- The field of a placeholder at the front of a text, and what follows the placeholder. -/
def front? : List Char → Option (List Char × List Char)
  | '{' :: rest =>
    match rest.takeWhile (· ≠ '}'), rest.dropWhile (· ≠ '}') with
    | c :: field, _ :: after => some (c :: field, after)
    | _, _ => none
  | _ => none

/-- A placeholder at the front is a brace, its field and a closing brace. -/
theorem front?_eq_some {s field after : List Char} (h : front? s = some (field, after)) :
    s = '{' :: (field ++ '}' :: after) ∧ field ≠ [] ∧ '}' ∉ field := by
  unfold front? at h
  split at h
  · rename_i rest
    split at h
    · rename_i c f d a hf ha
      simp only [Option.some.injEq, Prod.mk.injEq] at h
      obtain ⟨rfl, rfl⟩ := h
      have hd : d = '}' := by
        have := List.head?_dropWhile_not (· ≠ '}') rest
        simp only [ha, List.head?_cons] at this
        simpa using this
      have hall : '}' ∉ rest.takeWhile (· ≠ '}') := by
        intro hm
        have := List.all_takeWhile (l := rest) (p := (· ≠ '}'))
        rw [List.all_eq_true] at this
        simpa using this _ hm
      refine ⟨?_, by simp, hf ▸ hall⟩
      rw [← hd, ← ha, ← hf, List.takeWhile_append_dropWhile]
    · cases h
  · cases h

theorem length_of_front? {s field after : List Char} (h : front? s = some (field, after)) :
    after.length < s.length := by
  rw [(front?_eq_some h).1]
  simp only [List.length_cons, List.length_append]
  omega

/-- A text cut in front of its first placeholder. -/
def cut (s : List Char) : List Char × List Char :=
  breakAt (fun t => (front? t).isSome) s

/-- A literal segment, unless it is empty. -/
def literal (s : List Char) : List Segment :=
  if s.isEmpty then [] else [.static (String.ofList s)]

/-- The segments of a text, from left to right. -/
def segmentsOf (s : List Char) : List Segment :=
  match _h : front? (cut s).2 with
  | none => literal s
  | some (field, after) =>
    literal (cut s).1 ++ .dynamic (String.ofList field) :: segmentsOf after
termination_by s.length
decreasing_by exact Nat.lt_of_lt_of_le (length_of_front? _h) (breakAt_length_le _ _)

/-- A text without placeholders is one literal, unless it is empty. -/
theorem segmentsOf_of_front?_eq_none {s : List Char} (h : front? (cut s).2 = none) :
    segmentsOf s = literal s := by
  rw [segmentsOf]
  split
  · rfl
  · rename_i hsome
    rw [h] at hsome
    cases hsome

/-- The segments of an attribute's value. The empty value is one empty literal. -/
def valueSegments (s : String) : List Segment :=
  match segmentsOf s.toList with
  | [] => [.static ""]
  | segments => segments

/-- Whether a segment is more than blank literal text. -/
def isVisible : Segment → Bool
  | .static s => !isBlankText s
  | .dynamic _ => true

/-- The segments of a text, without literals that are blank. -/
def textSegments (s : String) : List Segment :=
  (valueSegments s).filter isVisible

/-- The first field of a text, or the text itself if it has none. -/
def fieldName (s : String) : String :=
  match front? (cut s.toList).2 with
  | none => s
  | some (field, _) => String.ofList field

/-- Whether a text has an opening and a closing brace, anywhere. -/
def isDynamic (s : String) : Bool :=
  s.toList.contains '{' && s.toList.contains '}'

/-- Whether a literal segment holds a brace. -/
def holdsBrace : Segment → Bool
  | .static s => s.toList.any fun c => c = '{' || c = '}'
  | .dynamic _ => false

/-- Whether a text has a brace outside all its placeholders. -/
def hasUnmatchedBrace (s : String) : Bool :=
  (valueSegments s).any holdsBrace

end Stencil.Placeholder
