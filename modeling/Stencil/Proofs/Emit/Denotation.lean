import Stencil.Proofs.Emit.Performing
import Stencil.Proofs.Emit.Run
import Stencil.Proofs.Text.Search

/-!
# The operations that a forest denotes

A forest denotes a list of operations, in the order of its source, and a list of reports. Both are
recursions on the forest that know nothing of sections, references or tables. Compiling a forest
and reading its image back gives these operations, and the compiler reports what they leave to
report.

The compiler itself does not recur on the forest. It keeps a list of what waits, from which the end
of an element comes up when its children are done. Whatever waits in front of something else is done
without a look at it, so that the list does what the recursion does.

## Main definitions

* `denote`, `denoteAll`: the operations of a node and of a forest
* `reports`, `reportsAll`: what is reported of a node and of a forest
* `walk`, `walkAll`: emitting a node and a forest, as recursions
* `Emit.Adds`: the operations and reports that an action adds

## Main results

* `tagName_eq`: a blank name is one of which nothing is left when it is trimmed
* `textSegments_of_isBlankText`: blank text has no segments
* `emitNodes_eq_walkAll`: **the list of what waits does what the recursion does**
* `performs_emitNodes`: **emitting a forest performs what it denotes**
* `decode_compile`: **reading the image of a forest gives what the forest denotes**
-/

namespace Stencil

open Stencil.Markup Stencil.Text Stencil.Wire

/-! ## Denotations -/

/-- The tag of an element: its name trimmed and in small letters, or the placeholder when nothing
is left of the name. -/
def normalTag (c : Config) (name : String) : String :=
  lowercase (if trim name = "" then c.placeholder else trim name)

/-- The operation that an attribute denotes. -/
def attributeOp (a : Attribute) : Op :=
  (Binding.classify a.name a.value).op

/-- The operation at the end of an element with the given tag. -/
def endOp (c : Config) (tag : String) : Op :=
  match isVoid tag, c.closeMode with
  | true, .voidOpcode => .selfClosing
  | _, _ => .tagClose

mutual

/-- The operations that a node denotes. -/
def denote (c : Config) : Node → List Op
  | .element t children =>
    .tagOpen (normalTag c t.name) :: t.attributes.map attributeOp
      ++ (if isVoid (normalTag c t.name) then [] else denoteAll c children)
      ++ [endOp c (normalTag c t.name)]
  | .text s _ => (Placeholder.textSegments s).map segmentOp
  | .comment _ _ => []
  | .other _ _ _ => []

/-- The operations that a forest denotes. -/
def denoteAll (c : Config) : List Node → List Op
  | [] => []
  | node :: rest => denote c node ++ denoteAll c rest

end

/-- What is reported of the braces of an attribute. -/
def attributeReports (a : Attribute) : List Diagnostic :=
  if Placeholder.hasUnmatchedBrace a.name || Placeholder.hasUnmatchedBrace a.value then
    [{ kind := .unmatchedBrace, span := a.span }]
  else []

/-- What is reported of a tag before its children. -/
def tagReports (c : Config) (t : Tag) (children : List Node) : List Diagnostic :=
  (if trim t.name = "" then [.about .emptyTagName t.span (normalTag c t.name)] else [])
    ++ t.attributes.flatMap attributeReports
    ++ if isVoid (normalTag c t.name) && !children.isEmpty then
        [.about .voidElementChildren t.span (normalTag c t.name)]
      else []

mutual

/-- What is reported of a node. -/
def reports (c : Config) : Node → List Diagnostic
  | .element t children =>
    tagReports c t children
      ++ if isVoid (normalTag c t.name) then [] else reportsAll c children
  | .text s span =>
    if !isBlankText s && Placeholder.hasUnmatchedBrace s then [{ kind := .unmatchedBrace, span }]
    else []
  | .comment _ _ => []
  | .other kind _ span => [.about .unsupportedNodeKind span kind.name]

/-- What is reported of a forest. -/
def reportsAll (c : Config) : List Node → List Diagnostic
  | [] => []
  | node :: rest => reports c node ++ reportsAll c rest

end

/-! ## Blank names and blank text -/

theorem tagName_eq (c : Config) (name : String) : tagName c name = normalTag c name := by
  rw [tagName, normalTag]
  by_cases h : isBlankText name = true
  · rw [if_pos h, if_pos ((trim_eq_empty_iff name).mpr h)]
  · rw [if_neg h, if_neg (mt (trim_eq_empty_iff name).mp h)]

namespace Placeholder

theorem front?_eq_none {s : List Char} (h : '{' ∉ s) : front? s = none := by
  cases hf : front? s with
  | none => rfl
  | some p =>
    rw [(front?_eq_some hf).1] at h
    exact absurd (List.mem_cons_self ..) h

theorem segmentsOf_of_notMem {s : List Char} (h : '{' ∉ s) : segmentsOf s = literal s := by
  have hcut : '{' ∉ (cut s).2 := by
    intro hm
    have hs := breakAt_append (fun t => (front? t).isSome) s
    exact h (hs ▸ List.mem_append_right _ hm)
  exact segmentsOf_of_front?_eq_none (front?_eq_none hcut)

/-- Blank text has no segments. -/
theorem textSegments_of_isBlankText {s : String} (h : isBlankText s = true) :
    textSegments s = [] := by
  -- A brace is not blank, so that there is no placeholder and one literal at most.
  have hbrace : '{' ∉ s.toList := by
    intro hm
    exact absurd (List.all_eq_true.mp h _ hm) (by decide)
  rw [textSegments, valueSegments, segmentsOf_of_notMem hbrace, literal]
  by_cases hs : s.toList.isEmpty = true
  · rw [if_pos hs]
    rfl
  · rw [if_neg hs, String.ofList_toList]
    simp [isVisible, h]

end Placeholder

/-! ## What waits, as a recursion on the forest -/

mutual

/-- Emits a node, and what is in it as it comes. -/
def walk (c : Config) : Node → Emit Unit
  | .element t children => do
    emitTag c t !children.isEmpty
    if isVoid (tagName c t.name) then pure () else walkAll c children
    emit c (closeOp c (isVoid (tagName c t.name)))
  | .text s span => emitText c s span
  | .comment _ _ => pure ()
  | .other kind _ span => Emit.report (.about .unsupportedNodeKind span kind.name)

/-- Emits the nodes of a forest one after the other. -/
def walkAll (c : Config) : List Node → Emit Unit
  | [] => pure ()
  | node :: rest => do
    walk c node
    walkAll c rest

end

/-- What is done for something that waits, whatever waits behind it. -/
def Pending.walk (c : Config) : Pending → Emit Unit
  | .node n => Stencil.walk c n
  | .close void => emit c (closeOp c void)

theorem forM_ofNodes (c : Config) (nodes : List Node) :
    (Pending.ofNodes nodes).forM (Pending.walk c) = walkAll c nodes := by
  induction nodes with
  | nil => rfl
  | cons node nodes ih =>
    rw [walkAll, ← ih]
    rfl

/-- What waits is emitted one after the other. -/
theorem emitPending_eq_forM (c : Config) (pending : List Pending) :
    emitPending c pending = pending.forM (Pending.walk c) := by
  fun_induction emitPending c pending with
  | case1 => rfl
  | case2 void rest ih => rw [ih]; rfl
  | case3 t children rest ihclosed ihinner =>
    have hwalk : (Pending.node (.element t children) :: rest).forM (Pending.walk c) =
        walk c (.element t children) >>= fun _ => rest.forM (Pending.walk c) := rfl
    rw [hwalk, walk, bind_assoc]
    refine bind_congr fun _ => ?_
    dsimp only
    split
    · rw [ihclosed]
      rfl
    · rw [ihinner, ← forM_ofNodes, bind_assoc]
      exact List.forM_append
  | case4 s span rest ih => rw [ih]; rfl
  | case5 s span rest ih => rw [ih]; rfl
  | case6 kind s span rest ih => rw [ih]; rfl

/-- **The list of what waits does what the recursion does**, to every emitter. -/
theorem emitNodes_eq_walkAll (c : Config) (nodes : List Node) :
    emitNodes c nodes = walkAll c nodes := by
  rw [emitNodes, emitPending_eq_forM, forM_ofNodes]

/-! ## What emitting a forest performs -/

open Emit

theorem performs_emitAttribute (c : Config) (a : Attribute) :
    Performs c (emitAttribute c a) [attributeOp a] (attributeReports a) := by
  have h := (performs_emit (c := c) (attributeOp a)).report_if
    (p := Placeholder.hasUnmatchedBrace a.name || Placeholder.hasUnmatchedBrace a.value)
    { kind := .unmatchedBrace, span := a.span }
  rw [List.append_nil] at h
  exact h

theorem performs_emitText (c : Config) (s : String) (span : Span) :
    Performs c (emitText c s span) (denote c (.text s span)) (reports c (.text s span)) := by
  rw [emitText, denote, reports]
  by_cases hb : isBlankText s = true
  · rw [if_pos hb, Placeholder.textSegments_of_isBlankText hb, hb]
    exact performs_pure
  · have hsegments := performs_forM (c := c)
      (fun segment => performs_emit (segmentOp segment)) (Placeholder.textSegments s)
    have hnone : (Placeholder.textSegments s).flatMap (fun _ => ([] : List Diagnostic)) = [] :=
      List.flatMap_eq_nil_iff.mpr fun _ _ => rfl
    have h := hsegments.report_if (p := Placeholder.hasUnmatchedBrace s)
      { kind := .unmatchedBrace, span }
    rw [hnone, List.append_nil] at h
    rw [if_neg hb, Bool.eq_false_iff.mpr hb]
    exact h

theorem performs_emitTag (c : Config) (t : Tag) (children : List Node) :
    Performs c (emitTag c t !children.isEmpty)
      (.tagOpen (normalTag c t.name) :: t.attributes.map attributeOp)
      (tagReports c t children) := by
  have hvoid := (performs_pure (c := c)).report_if
    (p := isVoid (normalTag c t.name) && !children.isEmpty)
    (.about .voidElementChildren t.span (normalTag c t.name))
  have hattributes := performs_forM (performs_emitAttribute c) t.attributes
  have h := ((performs_emit (.tagOpen (normalTag c t.name))).seq
    (hattributes.seq hvoid)).report_if (p := isBlankText t.name)
      (.about .emptyTagName t.span (normalTag c t.name))
  simp only [trim_eq_empty_iff, tagReports, emitTag, tagName_eq]
  simpa using h

theorem closeOp_eq (c : Config) (tag : String) : closeOp c (isVoid tag) = endOp c tag := by
  rw [closeOp, endOp]
  cases isVoid tag <;> cases c.closeMode <;> rfl

mutual

/-- Walking over a node performs what it denotes. -/
theorem performs_walk (c : Config) : ∀ node : Node,
    Performs c (walk c node) (denote c node) (reports c node)
  | .element t children => by
    rw [walk, denote, reports, tagName_eq, closeOp_eq]
    have htag := performs_emitTag c t children
    have hend := performs_emit (c := c) (endOp c (normalTag c t.name))
    cases isVoid (normalTag c t.name) with
    | true =>
      simp only [if_true, List.append_nil]
      exact (htag.seq hend).congr rfl (List.append_nil _)
    | false =>
      simp only [Bool.false_eq_true, if_false, List.append_assoc]
      have hbody := (performs_walkAll c children).seq hend
      rw [List.append_nil] at hbody
      exact htag.seq hbody
  | .text s span => performs_emitText c s span
  | .comment _ _ => performs_pure
  | .other kind _ span => performs_report (.about .unsupportedNodeKind span kind.name)

/-- Walking over a forest performs what it denotes. -/
theorem performs_walkAll (c : Config) : ∀ nodes : List Node,
    Performs c (walkAll c nodes) (denoteAll c nodes) (reportsAll c nodes)
  | [] => performs_pure
  | node :: rest => (performs_walk c node).seq (performs_walkAll c rest)

end

/-- **Emitting a forest performs what it denotes.** -/
theorem performs_emitNodes (c : Config) (nodes : List Node) :
    Performs c (emitNodes c nodes) (denoteAll c nodes) (reportsAll c nodes) := by
  rw [emitNodes_eq_walkAll]
  exact performs_walkAll c nodes

/-! ## Reading back -/

/-- The operations and the reports that an action adds if it succeeds. -/
def Emit.Adds (act : Emit Unit) (ops : List Op) (ds : List Diagnostic) : Prop :=
  ∀ ⦃e e' : Emitter⦄ ⦃before : List Op⦄, e.Carries before → act.run e = .ok () e' →
    e'.Carries (before ++ ops) ∧ e'.diagnostics.toList = e.diagnostics.toList ++ ds

/-- Operations that are emitted in a row are carried behind those that were there. -/
theorem Emitter.Carries.forM_emit {c : Config} {e e' : Emitter} {before ops : List Op}
    (h : e.Carries before) (hr : (ops.forM (Stencil.emit c)).run e = .ok () e') :
    e'.Carries (before ++ ops) ∧ e'.diagnostics = e.diagnostics := by
  induction ops generalizing e before with
  | nil =>
    cases hr
    exact ⟨by rwa [List.append_nil], rfl⟩
  | cons op ops ih =>
    obtain ⟨e₁, h₁, h₂⟩ := run_seq_eq_ok.mp hr
    obtain ⟨hcarries, hdiagnostics⟩ := ih (h.emit h₁) h₂
    refine ⟨?_, hdiagnostics.trans (diagnostics_of_emit h₁)⟩
    rwa [List.append_assoc] at hcarries

theorem Emit.Performs.adds {c : Config} {act : Emit Unit} {ops : List Op} {ds : List Diagnostic}
    (h : Performs c act ops ds) : Adds act ops ds := by
  intro e e' before hcarries hr
  cases hops : (ops.forM (emit c)).run e with
  | ok _ e₁ =>
    rw [h.ok hops] at hr
    cases hr
    obtain ⟨hfits, hdiagnostics⟩ := hcarries.forM_emit hops
    refine ⟨⟨hfits.fits, hfits.holds⟩, ?_⟩
    rw [Emitter.diagnostics_noting, hdiagnostics]
  | error err e₁ =>
    obtain ⟨made, -, hr'⟩ := h.error hops
    rw [hr'] at hr
    cases hr

theorem adds_emitNodes (c : Config) (nodes : List Node) :
    Adds (emitNodes c nodes) (denoteAll c nodes) (reportsAll c nodes) :=
  (performs_emitNodes c nodes).adds

/-- A compiled forest is what an emitter holds after the forest was emitted into it. -/
theorem run_of_compile {c : Config} {nodes : List Node} {compiled : Compiled}
    (h : compile c nodes = .ok compiled) :
    ∃ e, (emitNodes c nodes).run {} = .ok () e ∧ compiled = e.compiled := by
  rw [compile] at h
  cases hr : (emitNodes c nodes).run {} with
  | error err e =>
    rw [hr] at h
    cases h
  | ok u e =>
    rw [hr] at h
    exact ⟨e, rfl, (Except.ok.inj h).symm⟩

/-- **Reading the image of a forest gives what the forest denotes.** If a forest is compiled, its
image is accepted by a reader and decodes to the operations of the forest, and what is reported is
what the forest leaves to report. -/
theorem decode_compile (c : Config) (nodes : List Node) {compiled : Compiled}
    (h : compile c nodes = .ok compiled) :
    ∃ i, Image.load compiled.bytes = .ok i ∧ i.decode = .ok (denoteAll c nodes) ∧
      compiled.diagnostics = reportsAll c nodes := by
  rw [compile] at h
  cases hr : (emitNodes c nodes).run {} with
  | error err e =>
    rw [hr] at h
    cases h
  | ok u e =>
    rw [hr] at h
    cases h
    obtain ⟨hops, hds⟩ := adds_emitNodes c nodes Emitter.carries_nil hr
    exact ⟨e.image, hops.load, hops.decode, hds⟩

/-- A blank tag takes the placeholder, a void element loses its child, and a brace that closes
nothing stays in its segment. -/
theorem decode_compile_blank_tag :
    ∃ compiled, compile { placeholderTag := " Main " }
        [.element { name := " " }
            [.element { name := "BR", attributes := [⟨"class", "a \x7bb\x7d c\x7d", {}⟩] }
                [.text "lost" {}],
              .text "Hi \x7bname\x7d!" {}, .comment "c" {}],
          .other .doctype "doctype html" {}] = .ok compiled ∧
      ∃ i, Image.load compiled.bytes = .ok i ∧
        i.decode = .ok [.tagOpen "main", .tagOpen "br",
          .valueParts "class" [.static "a ", .dynamic "b", .static " c\x7d"], .selfClosing,
          .text "Hi ", .dynText "name", .text "!", .tagClose] ∧
        compiled.diagnostics = [.about .emptyTagName {} "main",
          { kind := .unmatchedBrace, span := {} }, .about .voidElementChildren {} "br",
          .about .unsupportedNodeKind {} "doctype"] := by
  generalize hr : compile _ _ = r
  have hok : r.toOption.isSome := by
    rw [← hr]
    decide +kernel
  cases r with
  | error err => cases hok
  | ok compiled =>
    obtain ⟨i, hload, hdecode, hreports⟩ := decode_compile _ _ hr
    refine ⟨compiled, rfl, i, hload, hdecode.trans ?_, hreports.trans ?_⟩
    · decide +kernel
    · decide +kernel

end Stencil
