import Stencil.Binding
import Stencil.Proofs.Text.Search

/-!
# The fields of placeholders

The placeholders of a text are found from the left: the first one is where no earlier place begins
one, and the next ones are found behind it. The fields that an attribute is bound to are fields of
placeholders of its name or its value. The one exception is a text that has an opening and a closing
brace, but no placeholder: it counts as dynamic, and stands as a whole for its field.

## Main definitions

* `Begins`, `First`: a placeholder at the front of a text, and the first one in it
* `FieldOf`: the fields of the placeholders of a text
* `HasPlaceholder`: whether there is a placeholder anywhere in a text
* `Reads`: the field that is read from a text
* `Binding.ReadsFrom`: a binding whose fields are read from the name and the value of an attribute

## Main results

* `front?_eq_some_iff`, `first_iff`: what the search for placeholders finds
* `hasPlaceholder_iff`: **it finds one if there is one**
* `fieldOf_of_mem_segmentsOf`: the dynamic segments of a text are fields of its placeholders
* `readsFrom_classify`: **bindings read fields of placeholders, or whole texts with crossed braces**
-/

namespace Stencil

open Stencil.Text

namespace Placeholder

/-! ## Placeholders -/

/-- A placeholder at the front of a text: a brace, a field that is not empty and has no closing
brace, a closing brace, and what follows. -/
structure Begins (s field after : List Char) : Prop where
  eq : s = '{' :: (field ++ '}' :: after)
  ne_nil : field ≠ []
  notMem : '}' ∉ field

/-- The first placeholder of a text begins at `rest`, behind `front`. -/
structure First (s front rest field after : List Char) : Prop where
  eq : s = front ++ rest
  begins : Begins rest field after
  leftmost : ∀ u v, front = u ++ v → v ≠ [] → ∀ f a, ¬ Begins (v ++ rest) f a

/-- The fields of the placeholders of a text: that of the first one, and those behind it. -/
inductive FieldOf : List Char → List Char → Prop
  | first {s front rest field after : List Char} (h : First s front rest field after) :
      FieldOf s field
  | later {s front rest field after f : List Char} (h : First s front rest field after)
      (hlater : FieldOf after f) : FieldOf s f

/-- Whether there is a placeholder anywhere in a text. -/
def HasPlaceholder (s : List Char) : Prop :=
  ∃ field, field ≠ [] ∧ '}' ∉ field ∧ '{' :: (field ++ ['}']) <:+: s

/-- The field of a placeholder stands in the text, between its braces. -/
theorem FieldOf.content {s f : List Char} (h : FieldOf s f) :
    f ≠ [] ∧ '}' ∉ f ∧ '{' :: (f ++ ['}']) <:+: s := by
  induction h with
  | @first s front rest field after h =>
    refine ⟨h.begins.ne_nil, h.begins.notMem, front, after, ?_⟩
    rw [h.eq, h.begins.eq]
    simp
  | @later s front rest field after f h _ ih =>
    obtain ⟨hne, hnotMem, hinfix⟩ := ih
    refine ⟨hne, hnotMem, hinfix.trans ⟨front ++ '{' :: (field ++ ['}']), [], ?_⟩⟩
    rw [h.eq, h.begins.eq]
    simp

/-! ## Searching -/

/-- **The placeholder at the front of a text.** -/
theorem front?_eq_some_iff {s field after : List Char} :
    front? s = some (field, after) ↔ Begins s field after := by
  constructor
  · intro h
    obtain ⟨heq, hne, hnotMem⟩ := front?_eq_some h
    exact ⟨heq, hne, hnotMem⟩
  · rintro ⟨rfl, hne, hnotMem⟩
    obtain ⟨c, rest, rfl⟩ := List.exists_cons_of_ne_nil hne
    have hall : ∀ x ∈ c :: rest, decide (x ≠ '}') = true := by
      intro x hx
      exact decide_eq_true fun h => hnotMem (h ▸ hx)
    rw [front?, List.takeWhile_append_of_pos hall, List.dropWhile_append_of_pos hall,
      List.takeWhile_cons_of_neg (by simp), List.dropWhile_cons_of_neg (by simp),
      List.append_nil]

theorem isSome_front?_iff {s : List Char} :
    (front? s).isSome = true ↔ ∃ field after, Begins s field after := by
  simp only [Option.isSome_iff_exists, Prod.exists, front?_eq_some_iff]

/-- **The first placeholder of a text** is where the search stops. -/
theorem first_iff {s front rest field after : List Char} :
    First s front rest field after ↔ cut s = (front, rest) ∧ front? rest = some (field, after) := by
  rw [front?_eq_some_iff]
  constructor
  · rintro ⟨rfl, hbegins, hleftmost⟩
    refine ⟨?_, hbegins⟩
    -- No earlier place begins a placeholder, so that the search goes on up to this one.
    apply breakAt_append_eq
    · intro u v hfront hv
      rw [Bool.eq_false_iff, ne_eq, isSome_front?_iff]
      rintro ⟨f, a, h⟩
      exact hleftmost u v hfront hv f a h
    · exact .inr (isSome_front?_iff.mpr ⟨field, after, hbegins⟩)
  · rintro ⟨hcut, hbegins⟩
    refine ⟨?_, hbegins, ?_⟩
    · have happend := breakAt_append (fun t => (front? t).isSome) s
      rw [← cut, hcut] at happend
      exact happend.symm
    · intro u v hfront hv f a h
      have hnone := breakAt_fst (fun t => (front? t).isSome) (s := s) (u := u) (v := v)
        (by rw [← cut, hcut, hfront]) hv
      rw [← cut, hcut, Bool.eq_false_iff, ne_eq, isSome_front?_iff] at hnone
      exact hnone ⟨f, a, h⟩

/-- **The search finds a placeholder if there is one.** -/
theorem hasPlaceholder_iff {s : List Char} :
    HasPlaceholder s ↔ (front? (cut s).2).isSome = true := by
  constructor
  · rintro ⟨field, hne, hnotMem, u, v, rfl⟩
    have hsuffix : '{' :: (field ++ '}' :: v) <:+ u ++ '{' :: (field ++ ['}']) ++ v :=
      ⟨u, by simp⟩
    exact breakAt_snd_of_suffix (p := fun t => (front? t).isSome) hsuffix (List.cons_ne_nil _ _)
      (isSome_front?_iff.mpr ⟨field, v, rfl, hne, hnotMem⟩)
  · intro h
    obtain ⟨⟨field, after⟩, hfront⟩ := Option.isSome_iff_exists.mp h
    have hfirst : First s (cut s).1 (cut s).2 field after := first_iff.mpr ⟨rfl, hfront⟩
    exact ⟨field, (FieldOf.first hfirst).content⟩

instance (s : List Char) : Decidable (HasPlaceholder s) :=
  decidable_of_iff _ hasPlaceholder_iff.symm

/-- **The dynamic segments of a text** are fields of its placeholders. -/
theorem fieldOf_of_mem_segmentsOf {s : List Char} {f : String} (h : .dynamic f ∈ segmentsOf s) :
    FieldOf s f.toList := by
  have hliteral : ∀ t : List Char, .dynamic f ∉ literal t := by
    intro t ht
    unfold literal at ht
    split at ht
    · cases ht
    · cases List.mem_singleton.mp ht
  fun_induction segmentsOf s with
  | case1 s hfront => exact absurd h (hliteral s)
  | case2 s field after hfront ih =>
    have hfirst : First s (cut s).1 (cut s).2 field after := first_iff.mpr ⟨rfl, hfront⟩
    rcases List.mem_append.mp h with h | h
    · exact absurd h (hliteral _)
    rcases List.mem_cons.mp h with heq | h
    · cases heq
      rw [String.toList_ofList]
      exact .first hfirst
    · exact .later hfirst (ih h)

/-! ## What is read from a text -/

/-- The field that is read from a text: one of a placeholder, or the text itself if it has an
opening and a closing brace, but no placeholder. -/
def Reads (s f : String) : Prop :=
  FieldOf s.toList f.toList ∨
    (f = s ∧ '{' ∈ s.toList ∧ '}' ∈ s.toList ∧ ¬ HasPlaceholder s.toList)

theorem isDynamic_iff {s : String} : isDynamic s = true ↔ '{' ∈ s.toList ∧ '}' ∈ s.toList := by
  rw [isDynamic, Bool.and_eq_true, List.contains_iff_mem, List.contains_iff_mem]

theorem reads_fieldName {s : String} (h : isDynamic s = true) : Reads s (fieldName s) := by
  rw [fieldName]
  cases hfront : front? (cut s.toList).2 with
  | none =>
    obtain ⟨hopen, hclose⟩ := isDynamic_iff.mp h
    refine .inr ⟨rfl, hopen, hclose, ?_⟩
    rw [hasPlaceholder_iff, hfront]
    exact Bool.false_ne_true
  | some found =>
    obtain ⟨field, after⟩ := found
    left
    rw [String.toList_ofList]
    exact .first (first_iff.mpr ⟨rfl, hfront⟩)

theorem fieldOf_of_mem_valueSegments {s f : String} (h : .dynamic f ∈ valueSegments s) :
    FieldOf s.toList f.toList := by
  unfold valueSegments at h
  split at h
  · cases List.mem_singleton.mp h
  · exact fieldOf_of_mem_segmentsOf h

end Placeholder

namespace Binding

open Placeholder

/-- A binding whose fields are read from the name and the value of an attribute, and whose literal
parts are the name and the value themselves. The mark in front of a handler is dropped from the
field that was read. -/
def ReadsFrom (name value : String) : Binding → Prop
  | event e h => e = eventName name ∧
      ∃ field, Reads value field ∧ h = strip ['e', 'h', '_', '_'] field
  | dynDyn n v => Reads name n ∧ Reads value v
  | parts n segments => n = name ∧ ∀ f, .dynamic f ∈ segments → FieldOf value.toList f.toList
  | staticDyn n f => n = name ∧ Reads value f
  | dynStatic f v => Reads name f ∧ v = value
  | static n v => n = name ∧ v = value

theorem readsFrom_ofValue (name : String) {value : String} (h : isDynamic value = true) :
    (ofValue name value).ReadsFrom name value := by
  unfold ofValue
  split
  · rename_i first second rest hsegments
    refine ⟨rfl, ?_⟩
    intro f hf
    exact fieldOf_of_mem_valueSegments (hsegments ▸ hf)
  · exact ⟨rfl, reads_fieldName h⟩

/-- **A binding reads its fields** from the name and the value of its attribute. -/
theorem readsFrom_classify (name value : String) :
    (classify name value).ReadsFrom name value := by
  unfold classify
  split
  · rename_i hevent
    rw [Bool.and_eq_true] at hevent
    exact ⟨rfl, _, reads_fieldName hevent.2, rfl⟩
  · split
    · rename_i hname hvalue
      exact ⟨reads_fieldName hname, reads_fieldName hvalue⟩
    · rename_i hvalue
      exact readsFrom_ofValue name hvalue
    · rename_i hname _
      exact ⟨reads_fieldName hname, rfl⟩
    · exact ⟨rfl, rfl⟩

/-- A dynamic value is never bound as a literal. -/
theorem ofValue_ne_static (name value : String) : ofValue name value ≠ .static name value := by
  unfold ofValue
  split <;> exact nofun

/-- An attribute is literal exactly if neither its name nor its value is dynamic. -/
theorem classify_eq_static_iff {name value : String} :
    classify name value = .static name value ↔
      isDynamic name = false ∧ isDynamic value = false := by
  unfold classify
  cases hname : isDynamic name <;> cases hvalue : isDynamic value <;>
    cases isEventName name <;> simp [ofValue_ne_static]

/-- **Bindings read fields of placeholders, or whole texts with crossed braces.** Each field of the
binding of an attribute is that of a placeholder of its name or its value, unless that text has an
opening and a closing brace but no placeholder, and then it is the text itself. The field of a
placeholder is not empty, has no closing brace and stands between the braces in the text. An
attribute is bound as a literal, its name and its value unchanged, exactly if neither of them has
braces of both kinds. -/
theorem fields_of_classify (name value : String) :
    (classify name value).ReadsFrom name value ∧
      (∀ s f, FieldOf s f → f ≠ [] ∧ '}' ∉ f ∧ '{' :: (f ++ ['}']) <:+: s) ∧
      (classify name value = .static name value ↔
        ¬ ('{' ∈ name.toList ∧ '}' ∈ name.toList) ∧
          ¬ ('{' ∈ value.toList ∧ '}' ∈ value.toList)) := by
  refine ⟨readsFrom_classify name value, fun s f h => h.content, ?_⟩
  rw [classify_eq_static_iff, ← isDynamic_iff, ← isDynamic_iff, Bool.not_eq_true,
    Bool.not_eq_true]

/-- A field with an opening brace in it, and an empty pair of braces behind it. -/
theorem fields_of_classify_parts :
    classify "class" "x\x7ba\x7bb\x7d\x7b\x7d" =
        .parts "class" [.static "x", .dynamic "a\x7bb", .static "\x7b\x7d"] ∧
      FieldOf "x\x7ba\x7bb\x7d\x7b\x7d".toList "a\x7bb".toList ∧
      '}' ∉ "a\x7bb".toList := by
  have hclassify : classify "class" "x\x7ba\x7bb\x7d\x7b\x7d" =
      .parts "class" [.static "x", .dynamic "a\x7bb", .static "\x7b\x7d"] := by decide +kernel
  obtain ⟨hreads, hcontent, -⟩ := fields_of_classify "class" "x\x7ba\x7bb\x7d\x7b\x7d"
  rw [hclassify] at hreads
  have hfield := hreads.2 "a\x7bb" (by simp)
  exact ⟨hclassify, hfield, (hcontent _ _ hfield).2.1⟩

/-- Neither the name nor the value has a placeholder, and yet the value is bound as a field. -/
theorem classify_crossed_braces :
    ¬ HasPlaceholder "data".toList ∧ ¬ HasPlaceholder "\x7d\x7b".toList ∧
      classify "data" "\x7d\x7b" = .staticDyn "data" "\x7d\x7b" := by
  decide +kernel

end Binding

end Stencil
