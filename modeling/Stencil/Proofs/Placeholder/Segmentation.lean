import Mathlib.Data.List.Chain
import Stencil.Proofs.Placeholder.Fields

/-!
# Texts as segments

Reading a text from the left is one way to cut it into literals and placeholders. It is the only
one that leaves no placeholder inside a literal: a brace in a literal has a closing brace right
behind it, or none at all. So the segments of a text are known from what they write, and what is
read off them does not depend on how they were found.

## Main definitions

* `Segment.write`: a segment as it stands in a text
* `Idle`: what stands behind a brace that begins no placeholder
* `Decomposes`: a list of segments is a way to cut a text
* `IsPiece`: a placeholder, or a single character that is no brace

## Main results

* `exists_begins_iff`: when a brace begins a placeholder
* `decomposes_segmentsOf`, `Decomposes.eq_segmentsOf`: the one way to cut a text
* `valueSegments_unique`: **the segments of a text are its only decomposition**, and give its first
  field and what is visible of it
* `hasUnmatchedBrace_iff_pieces`: **all braces match exactly if the text is made of placeholders and
  characters that are no braces**
-/

namespace Stencil

open Stencil.Text

namespace Segment

/-- A segment as it stands in a text: a literal as it is, and a field between braces. -/
def write : Segment → List Char
  | static s => s.toList
  | dynamic f => '{' :: (f.toList ++ ['}'])

/-- The field of a segment that names one. -/
def field? : Segment → Option String
  | static _ => none
  | dynamic f => some f

/-- Whether anything is left of a segment when its literal text is trimmed. -/
def leavesText : Segment → Bool
  | static s => trim s ≠ ""
  | dynamic _ => true

end Segment

namespace Placeholder

/-! ## Braces that begin no placeholder -/

/-- What stands behind a brace that begins no placeholder: a closing brace comes at once or not at
all. -/
def Idle (rest : List Char) : Prop :=
  rest.head? = some '}' ∨ '}' ∉ rest

/-- **A brace begins a placeholder** unless a closing brace comes at once or not at all. -/
theorem exists_begins_iff {rest : List Char} :
    (∃ field after, Begins ('{' :: rest) field after) ↔ ¬ Idle rest := by
  constructor
  · rintro ⟨field, after, heq, hne, hnotMem⟩ hidle
    obtain rfl := (List.cons.inj heq).2
    rcases hidle with hhead | hnone
    · obtain ⟨c, field, rfl⟩ := List.exists_cons_of_ne_nil hne
      cases hhead
      exact hnotMem (List.mem_cons_self ..)
    · exact hnone (List.mem_append_right _ (List.mem_cons_self ..))
  · intro hidle
    rw [Idle, not_or, not_not] at hidle
    obtain ⟨hhead, hmem⟩ := hidle
    obtain ⟨field, after, rfl, hnotMem⟩ := List.eq_append_cons_of_mem hmem
    refine ⟨field, after, rfl, ?_, hnotMem⟩
    rintro rfl
    exact hhead rfl

/-- No brace of a text begins a placeholder, whatever else follows the text. -/
theorem forall_idle_iff {t rest : List Char} :
    (∀ u v, t = u ++ '{' :: v → Idle (v ++ rest)) ↔
      ∀ u v, t = u ++ v → v ≠ [] → ∀ field after, ¬ Begins (v ++ rest) field after := by
  constructor
  · intro hidle u v ht hv field after hbegins
    obtain ⟨c, v, rfl⟩ := List.exists_cons_of_ne_nil hv
    obtain rfl : c = '{' := (List.cons.inj hbegins.eq).1
    exact exists_begins_iff.mp ⟨field, after, hbegins⟩ (hidle u v ht)
  · intro hnone u v ht
    by_contra hidle
    obtain ⟨field, after, hbegins⟩ := exists_begins_iff.mpr hidle
    exact hnone u ('{' :: v) ht (List.cons_ne_nil _ _) field after hbegins

theorem not_hasPlaceholder_iff {s : List Char} :
    ¬ HasPlaceholder s ↔ ∀ u v, s = u ++ '{' :: v → Idle v := by
  constructor
  · intro hnone u v hs
    by_contra hidle
    obtain ⟨field, after, hbegins⟩ := exists_begins_iff.mpr hidle
    refine hnone ⟨field, hbegins.ne_nil, hbegins.notMem, u, after, ?_⟩
    rw [hs, hbegins.eq]
    simp
  · rintro hidle ⟨field, hne, hnotMem, u, after, hs⟩
    have hbegins : Begins ('{' :: (field ++ '}' :: after)) field after := ⟨rfl, hne, hnotMem⟩
    refine exists_begins_iff.mp ⟨field, after, hbegins⟩ (hidle u _ ?_)
    rw [← hs]
    simp

/-- A placeholder at the front of a text is its first one. -/
theorem Begins.first {s field after : List Char} (h : Begins s field after) :
    First s [] s field after where
  eq := rfl
  begins := h
  leftmost _ _ huv hv := absurd (List.append_eq_nil_iff.mp huv.symm).2 hv

/-! ## Decompositions -/

/-- A list of segments is a way to cut a text: written one behind the other the segments are the
text, each field stands between braces that match, no brace of a literal begins a placeholder of
the text, and literals are not adjacent. -/
structure Decomposes (s : List Char) (segments : List Segment) : Prop where
  write : segments.flatMap Segment.write = s
  fields : ∀ f, .dynamic f ∈ segments → f ≠ "" ∧ '}' ∉ f.toList
  braces : ∀ front t back, segments = front ++ .static t :: back →
    ∀ u v, t.toList = u ++ '{' :: v → Idle (v ++ back.flatMap Segment.write)
  apart : segments.IsChain fun a b => ¬ (a.kind = .static ∧ b.kind = .static)

theorem decomposes_nil_iff {s : List Char} : Decomposes s [] ↔ s = [] := by
  constructor
  · intro h
    exact h.write.symm
  · rintro rfl
    exact ⟨rfl, nofun, by simp, .nil⟩

/-- A decomposition is one of what its first segment leaves of the text. -/
theorem decomposes_cons {s : List Char} {a : Segment} {segments : List Segment} :
    Decomposes s (a :: segments) ↔
      ∃ after, s = a.write ++ after ∧ (∀ f, a = .dynamic f → f ≠ "" ∧ '}' ∉ f.toList) ∧
        (∀ t, a = .static t → ∀ u v, t.toList = u ++ '{' :: v → Idle (v ++ after)) ∧
        (∀ b ∈ segments.head?, ¬ (a.kind = .static ∧ b.kind = .static)) ∧
        Decomposes after segments := by
  constructor
  · intro h
    have hapart := List.isChain_cons.mp h.apart
    refine ⟨segments.flatMap Segment.write, ?_, ?_, ?_, hapart.1, rfl, ?_, ?_, hapart.2⟩
    · rw [← h.write, List.flatMap_cons]
    · rintro f rfl
      exact h.fields f (List.mem_cons_self ..)
    · rintro t rfl
      exact h.braces [] t segments rfl
    · intro f hf
      exact h.fields f (List.mem_cons_of_mem _ hf)
    · intro front t back hsegments
      exact h.braces (a :: front) t back (by rw [hsegments, List.cons_append])
  · rintro ⟨after, hs, hfield, hliteral, hhead, h⟩
    refine ⟨?_, ?_, ?_, List.isChain_cons.mpr ⟨hhead, h.apart⟩⟩
    · rw [List.flatMap_cons, h.write, hs]
    · intro f hf
      rcases List.mem_cons.mp hf with heq | hf
      · exact hfield f heq.symm
      · exact h.fields f hf
    · intro front t back hsegments
      cases front with
      | nil =>
        obtain ⟨ha, rfl⟩ := List.cons.inj hsegments
        rw [h.write]
        exact hliteral t ha
      | cons b front => exact h.braces front t back (List.cons.inj hsegments).2

/-- A decomposition that begins with a field begins with a placeholder. -/
theorem decomposes_dynamic_cons {s : List Char} {f : String} {segments : List Segment} :
    Decomposes s (.dynamic f :: segments) ↔
      ∃ after, Begins s f.toList after ∧ Decomposes after segments := by
  rw [decomposes_cons]
  constructor
  · rintro ⟨after, hs, hfield, -, -, h⟩
    obtain ⟨hne, hnotMem⟩ := hfield f rfl
    refine ⟨after, ⟨?_, by simpa using hne, hnotMem⟩, h⟩
    rw [hs, Segment.write]
    simp
  · rintro ⟨after, hbegins, h⟩
    refine ⟨after, ?_, ?_, nofun, ?_, h⟩
    · rw [hbegins.eq, Segment.write]
      simp
    · rintro g ⟨⟩
      exact ⟨by simpa using hbegins.ne_nil, hbegins.notMem⟩
    · rintro b - ⟨hkind, -⟩
      cases hkind

/-- A decomposition that begins with a literal goes on with a field, if it goes on. -/
theorem decomposes_static_cons {s : List Char} {t : String} {segments : List Segment} :
    Decomposes s (.static t :: segments) ↔
      ∃ after, s = t.toList ++ after ∧ (∀ u v, t.toList = u ++ '{' :: v → Idle (v ++ after)) ∧
        (∀ b ∈ segments.head?, b.kind ≠ .static) ∧ Decomposes after segments := by
  rw [decomposes_cons]
  constructor
  · rintro ⟨after, hs, -, hliteral, hhead, h⟩
    exact ⟨after, hs, hliteral t rfl, fun b hb hkind => hhead b hb ⟨rfl, hkind⟩, h⟩
  · rintro ⟨after, hs, hliteral, hhead, h⟩
    refine ⟨after, hs, nofun, ?_, fun b hb hkind => hhead b hb hkind.2, h⟩
    rintro t' ⟨⟩
    exact hliteral

theorem literal_toList {t : String} (ht : t ≠ "") : literal t.toList = [.static t] := by
  rw [literal, if_neg (by simpa using ht), String.ofList_toList]

/-- A literal in front of a decomposition that begins with a field, if the literal is not empty. -/
theorem Decomposes.literal_append {rest : List Char} {segments : List Segment}
    (h : Decomposes rest segments) {front : List Char}
    (hidle : ∀ u v, front = u ++ '{' :: v → Idle (v ++ rest))
    (hhead : ∀ b ∈ segments.head?, b.kind ≠ .static) :
    Decomposes (front ++ rest) (literal front ++ segments) := by
  by_cases hfront : front = []
  · subst hfront
    exact h
  · have hliteral : literal front = [.static (String.ofList front)] := by
      rw [literal, if_neg (by simpa using hfront)]
    rw [hliteral, List.singleton_append, decomposes_static_cons, String.toList_ofList]
    exact ⟨rest, rfl, hidle, hhead, h⟩

/-- The segments of a text decompose it. -/
theorem decomposes_segmentsOf (s : List Char) : Decomposes s (segmentsOf s) := by
  fun_induction segmentsOf s with
  | case1 s hfront =>
    have hnone : ¬ HasPlaceholder s := by
      rw [hasPlaceholder_iff, hfront]
      exact Bool.false_ne_true
    have hidle : ∀ u v, s = u ++ '{' :: v → Idle (v ++ []) := by
      simpa using not_hasPlaceholder_iff.mp hnone
    simpa using (decomposes_nil_iff.mpr rfl).literal_append hidle (by simp)
  | case2 s field after hfront ih =>
    have hfirst : First s (cut s).1 (cut s).2 field after := first_iff.mpr ⟨rfl, hfront⟩
    have hrest : Decomposes (cut s).2 (.dynamic (String.ofList field) :: segmentsOf after) := by
      rw [decomposes_dynamic_cons, String.toList_ofList]
      exact ⟨after, hfirst.begins, ih⟩
    have h := hrest.literal_append (forall_idle_iff.mpr hfirst.leftmost)
      (by rintro b ⟨⟩ ⟨⟩)
    rwa [← hfirst.eq] at h

theorem static_empty_notMem_literal (s : List Char) : .static "" ∉ literal s := by
  unfold literal
  split
  · exact List.not_mem_nil
  · rename_i hs
    rw [List.mem_singleton, Segment.static.injEq, eq_comm]
    simpa using hs

theorem static_empty_notMem_segmentsOf (s : List Char) : .static "" ∉ segmentsOf s := by
  fun_induction segmentsOf s with
  | case1 s hfront => exact static_empty_notMem_literal s
  | case2 s field after hfront ih =>
    rw [List.mem_append, List.mem_cons, not_or, not_or]
    exact ⟨static_empty_notMem_literal _, by simp, ih⟩

/-- A decomposition without empty literals is one literal, or it is cut at the first placeholder of
the text. -/
theorem Decomposes.cases {s : List Char} {segments : List Segment} (h : Decomposes s segments)
    (hempty : .static "" ∉ segments) :
    (¬ HasPlaceholder s ∧ segments = literal s) ∨
      ∃ front rest field after behind, First s front rest field after ∧
        segments = literal front ++ .dynamic (String.ofList field) :: behind ∧
        Decomposes after behind ∧ .static "" ∉ behind := by
  match segments, h with
  | [], h =>
    obtain rfl := decomposes_nil_iff.mp h
    exact .inl ⟨by simp [not_hasPlaceholder_iff], rfl⟩
  | .dynamic f :: behind, h =>
    obtain ⟨after, hbegins, hbehind⟩ := decomposes_dynamic_cons.mp h
    refine .inr ⟨[], s, f.toList, after, behind, hbegins.first, ?_, hbehind,
      fun hmem => hempty (List.mem_cons_of_mem _ hmem)⟩
    rw [String.ofList_toList]
    rfl
  | .static t :: segments, h =>
    obtain ⟨rest, rfl, hidle, hhead, hsegments⟩ := decomposes_static_cons.mp h
    have ht : t ≠ "" := by
      rintro rfl
      exact hempty (List.mem_cons_self ..)
    match segments, hsegments with
    | [], hsegments =>
      obtain rfl := decomposes_nil_iff.mp hsegments
      rw [List.append_nil]
      refine .inl ⟨not_hasPlaceholder_iff.mpr ?_, (literal_toList ht).symm⟩
      simpa using hidle
    | .static t' :: segments, _ => exact absurd rfl (hhead (.static t') rfl)
    | .dynamic f :: behind, hsegments =>
      obtain ⟨after, hbegins, hbehind⟩ := decomposes_dynamic_cons.mp hsegments
      refine .inr ⟨t.toList, rest, f.toList, after, behind,
        ⟨rfl, hbegins, forall_idle_iff.mp hidle⟩, ?_, hbehind, fun hmem => hempty ?_⟩
      · rw [String.ofList_toList, literal_toList ht]
        rfl
      · exact List.mem_cons_of_mem _ (List.mem_cons_of_mem _ hmem)

/-- **There is no other way to cut a text.** -/
theorem Decomposes.eq_segmentsOf {s : List Char} {segments : List Segment}
    (h : Decomposes s segments) (hempty : .static "" ∉ segments) : segments = segmentsOf s := by
  fun_induction segmentsOf s generalizing segments with
  | case1 s hfront =>
    rcases h.cases hempty with ⟨-, hsegments⟩ | ⟨front, rest, field, after, -, hfirst, -⟩
    · exact hsegments
    · obtain ⟨hcut, hsome⟩ := first_iff.mp hfirst
      rw [hcut, hsome] at hfront
      cases hfront
  | case2 s field after hfront ih =>
    rcases h.cases hempty with ⟨hnone, -⟩ | ⟨front, rest, field', after', behind, hfirst,
      hsegments, hbehind, hnonempty⟩
    · rw [hasPlaceholder_iff, hfront] at hnone
      exact absurd rfl hnone
    · -- Both are cut at the first placeholder, and there is only one.
      obtain ⟨hcut, hsome⟩ := first_iff.mp hfirst
      rw [hcut, hsome, Option.some.injEq, Prod.mk.injEq] at hfront
      obtain ⟨rfl, rfl⟩ := hfront
      rw [hsegments, hcut, ih hbehind hnonempty]

/-! ## What is read off the segments -/

theorem segmentsOf_of_first {s front rest field after : List Char}
    (h : First s front rest field after) :
    segmentsOf s = literal front ++ .dynamic (String.ofList field) :: segmentsOf after := by
  obtain ⟨hcut, hfront⟩ := first_iff.mp h
  rw [segmentsOf]
  split
  · rename_i hnone
    rw [hcut, hfront] at hnone
    cases hnone
  · rename_i hsome
    rw [hcut, hfront] at hsome
    cases hsome
    rw [hcut]

theorem valueSegments_of_ne {s : String} (hs : s ≠ "") : valueSegments s = segmentsOf s.toList := by
  unfold valueSegments
  split
  · rename_i hnil
    have hwrite := (decomposes_segmentsOf s.toList).write
    rw [hnil, List.flatMap_nil] at hwrite
    exact absurd (String.toList_inj.mp hwrite.symm) hs
  · rfl

/-- The segments of a text are its only decomposition without empty literals. The empty text is the
exception: it is one empty literal. -/
theorem decomposes_valueSegments_iff {s : String} {segments : List Segment} :
    (Decomposes s.toList segments ∧
        if s = "" then segments = [.static ""] else .static "" ∉ segments) ↔
      segments = valueSegments s := by
  by_cases hs : s = ""
  · subst hs
    have hempty : Decomposes [] [.static ""] :=
      decomposes_static_cons.mpr
        ⟨[], rfl, fun u v huv => absurd huv (by simp), nofun, decomposes_nil_iff.mpr rfl⟩
    have hvalue : valueSegments "" = [.static ""] := by decide +kernel
    rw [if_pos rfl, hvalue]
    constructor
    · rintro ⟨-, h⟩
      exact h
    · rintro rfl
      exact ⟨hempty, rfl⟩
  · rw [if_neg hs, valueSegments_of_ne hs]
    constructor
    · rintro ⟨h, hempty⟩
      exact h.eq_segmentsOf hempty
    · rintro rfl
      exact ⟨decomposes_segmentsOf _, static_empty_notMem_segmentsOf _⟩

theorem findSome?_field?_literal (s : List Char) : (literal s).findSome? Segment.field? = none := by
  unfold literal
  split <;> rfl

/-- The first field of a text is that of its first dynamic segment. -/
theorem fieldName_eq (s : String) :
    fieldName s = ((valueSegments s).findSome? Segment.field?).getD s := by
  by_cases hs : s = ""
  · subst hs
    decide +kernel
  rw [valueSegments_of_ne hs, fieldName]
  cases hfront : front? (cut s.toList).2 with
  | none =>
    rw [segmentsOf_of_front?_eq_none hfront, findSome?_field?_literal]
    rfl
  | some found =>
    obtain ⟨field, after⟩ := found
    have hfirst := first_iff.mpr ⟨rfl, hfront⟩
    rw [segmentsOf_of_first hfirst, List.findSome?_append, findSome?_field?_literal]
    rfl

theorem isVisible_eq (a : Segment) : isVisible a = a.leavesText := by
  cases a with
  | static t =>
    rw [isVisible, Segment.leavesText, Bool.eq_iff_iff]
    simp [trim_eq_empty_iff]
  | dynamic f => rfl

/-- **The segments of a text are its only decomposition** into fields and literals that are not
empty, apart from the empty text, which is one empty literal. The field of a text is the first one
of its segments, or the text itself if they have none, and what is visible of it are its segments
without the literals that leave nothing when they are trimmed. -/
theorem valueSegments_unique (s : String) :
    (∀ segments, (Decomposes s.toList segments ∧
        if s = "" then segments = [.static ""] else .static "" ∉ segments) ↔
      segments = valueSegments s) ∧
    fieldName s = ((valueSegments s).findSome? Segment.field?).getD s ∧
    textSegments s = (valueSegments s).filter Segment.leavesText := by
  refine ⟨fun segments => decomposes_valueSegments_iff, fieldName_eq s, ?_⟩
  rw [textSegments, funext isVisible_eq]

-- The outer pair of braces is not seen: the first brace takes the nearest closing one.
example : valueSegments "\x7b\x7bx\x7d\x7d" = [.dynamic "\x7bx", .static "\x7d"] := by
  decide +kernel

/-! ## Texts whose braces match -/

/-- A part of a text whose braces match: a character that is no brace, or a placeholder. -/
inductive IsPiece : List Char → Prop
  | char {c : Char} (notOpen : c ≠ '{') (notClose : c ≠ '}') : IsPiece [c]
  | placeholder {field : List Char} (ne_nil : field ≠ []) (notMem : '}' ∉ field) :
      IsPiece ('{' :: (field ++ ['}']))

theorem any_holdsBrace_literal (s : List Char) :
    (literal s).any holdsBrace = s.any fun c => c = '{' || c = '}' := by
  cases s with
  | nil => rfl
  | cons c s => simp [literal, holdsBrace]

/-- The empty literal that stands for the empty text holds no brace either. -/
theorem hasUnmatchedBrace_eq (s : String) :
    hasUnmatchedBrace s = (segmentsOf s.toList).any holdsBrace := by
  by_cases hs : s = ""
  · subst hs
    decide +kernel
  · rw [hasUnmatchedBrace, valueSegments_of_ne hs]

/-- A segment without a brace outside of a placeholder is made of pieces. -/
theorem exists_pieces_of_segment {a : Segment} (hbrace : holdsBrace a = false)
    (hfield : ∀ f, a = .dynamic f → f ≠ "" ∧ '}' ∉ f.toList) :
    ∃ pieces : List (List Char), (∀ p ∈ pieces, IsPiece p) ∧ pieces.flatten = a.write := by
  cases a with
  | static t =>
    refine ⟨t.toList.map fun c => [c], ?_, ?_⟩
    · intro p hp
      obtain ⟨c, hc, rfl⟩ := List.mem_map.mp hp
      rw [holdsBrace, List.any_eq_false] at hbrace
      have hc := hbrace c hc
      rw [Bool.or_eq_true, decide_eq_true_iff, decide_eq_true_iff, not_or] at hc
      exact .char hc.1 hc.2
    · rw [← List.flatMap_def, Segment.write, List.flatMap_singleton']
  | dynamic f =>
    obtain ⟨hne, hnotMem⟩ := hfield f rfl
    refine ⟨[(Segment.dynamic f).write], ?_, by simp⟩
    intro p hp
    rw [List.mem_singleton.mp hp]
    exact .placeholder (by simpa using hne) hnotMem

/-- Segments without a brace outside of placeholders write a text that is made of pieces. -/
theorem Decomposes.exists_pieces {s : List Char} {segments : List Segment}
    (h : Decomposes s segments) (hbrace : segments.any holdsBrace = false) :
    ∃ pieces : List (List Char), (∀ p ∈ pieces, IsPiece p) ∧ pieces.flatten = s := by
  induction segments generalizing s with
  | nil => exact ⟨[], nofun, (decomposes_nil_iff.mp h).symm⟩
  | cons a segments ih =>
    obtain ⟨after, rfl, hfield, -, -, hafter⟩ := decomposes_cons.mp h
    rw [List.any_cons, Bool.or_eq_false_iff] at hbrace
    obtain ⟨front, hfront, hwrite⟩ := exists_pieces_of_segment hbrace.1 hfield
    obtain ⟨back, hback, hflat⟩ := ih hafter hbrace.2
    refine ⟨front ++ back, ?_, by rw [List.flatten_append, hwrite, hflat]⟩
    intro p hp
    rcases List.mem_append.mp hp with hp | hp
    · exact hfront p hp
    · exact hback p hp

theorem cut_cons {c : Char} (hc : c ≠ '{') (s : List Char) :
    cut (c :: s) = (c :: (cut s).1, (cut s).2) := by
  apply breakAt_cons_neg
  rw [Bool.eq_false_iff, ne_eq, isSome_front?_iff]
  rintro ⟨field, after, h⟩
  exact hc (List.cons.inj h.eq).1

/-- A character that is no brace changes nothing about the braces behind it. -/
theorem any_holdsBrace_segmentsOf_cons {c : Char} (hopen : c ≠ '{') (hclose : c ≠ '}')
    (s : List Char) :
    (segmentsOf (c :: s)).any holdsBrace = (segmentsOf s).any holdsBrace := by
  have hcut := cut_cons hopen s
  cases hfront : front? (cut s).2 with
  | none =>
    have hcons : front? (cut (c :: s)).2 = none := by
      rw [hcut, hfront]
    rw [segmentsOf_of_front?_eq_none hfront, segmentsOf_of_front?_eq_none hcons,
      any_holdsBrace_literal, any_holdsBrace_literal]
    simp [hopen, hclose]
  | some found =>
    obtain ⟨field, after⟩ := found
    have hfirst : First s (cut s).1 (cut s).2 field after := first_iff.mpr ⟨rfl, hfront⟩
    have hcons : First (c :: s) (c :: (cut s).1) (cut s).2 field after :=
      first_iff.mpr ⟨hcut, hfront⟩
    rw [segmentsOf_of_first hfirst, segmentsOf_of_first hcons, List.any_append, List.any_append,
      any_holdsBrace_literal, any_holdsBrace_literal]
    simp [hopen, hclose]

/-- A text made of pieces has no brace outside of its placeholders. -/
theorem any_holdsBrace_segmentsOf_flatten {pieces : List (List Char)}
    (h : ∀ p ∈ pieces, IsPiece p) : (segmentsOf pieces.flatten).any holdsBrace = false := by
  induction pieces with
  | nil => decide +kernel
  | cons p pieces ih =>
    have hpieces := ih fun q hq => h q (List.mem_cons_of_mem _ hq)
    rw [List.flatten_cons]
    cases h p (List.mem_cons_self ..) with
    | char hopen hclose =>
      exact (any_holdsBrace_segmentsOf_cons hopen hclose _).trans hpieces
    | @placeholder field hne hnotMem =>
      have hbegins : Begins ('{' :: (field ++ ['}']) ++ pieces.flatten) field pieces.flatten :=
        ⟨by simp, hne, hnotMem⟩
      rw [segmentsOf_of_first hbegins.first]
      exact hpieces

/-- **All braces match** exactly if the text is made of placeholders and of characters that are no
braces. -/
theorem hasUnmatchedBrace_iff_pieces (s : String) :
    hasUnmatchedBrace s = false ↔
      ∃ pieces : List (List Char), (∀ p ∈ pieces, IsPiece p) ∧ pieces.flatten = s.toList := by
  rw [hasUnmatchedBrace_eq]
  constructor
  · exact (decomposes_segmentsOf s.toList).exists_pieces
  · rintro ⟨pieces, hpieces, hflat⟩
    rw [← hflat]
    exact any_holdsBrace_segmentsOf_flatten hpieces

end Placeholder

end Stencil
