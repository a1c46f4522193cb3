import Stencil.Proofs.Markup.Grouping

/-!
# Reading back what was written

A forest in canonical form is read back from its markup. The builder keeps the elements that are
open, and the markup of a node, wherever it stands, adds that node to the innermost of them: its
start tag opens an element, its children are added to that element, and its end tag closes it.

## Main definitions

* `Builder.run o b s`: what a builder makes of a text that begins at an offset
* `Builder.Reads`: a text that adds nodes to whatever a builder has

## Main results

* `reads_render`, `reads_renderAll`: the markup of a node adds that node
* `parse_render`: **parsing recovers every forest in canonical form**
-/

namespace Stencil.Markup

open Stencil.Text

theorem unplacedAll_eq_map (nodes : List Node) : unplacedAll nodes = nodes.map Node.unplaced := by
  induction nodes with
  | nil => rfl
  | cons node nodes ih => rw [unplacedAll, List.map_cons, ih]

theorem Tag.name_of_unplaced {t t' : Tag} (h : t'.unplaced = t.unplaced) : t'.name = t.name :=
  (Tag.mk.inj h).1

namespace Builder

/-- What a builder makes of a text that begins at an offset. -/
def run (o : Nat) (b : Builder) (s : List Char) : Builder :=
  (eventsAt o s).foldl step b

theorem run_nil (o : Nat) (b : Builder) : run o b [] = b := by
  rw [run, eventsAt, scan, tokensFrom, eventsOf]
  rfl

theorem run_of_cons {o o' : Nat} {s rest : List Char} {e : Event}
    (h : eventsAt o s = e :: eventsAt o' rest) (b : Builder) :
    run o b s = run o' (b.step e) rest := by
  rw [run, h, List.foldl_cons, run]

/-! ## Opening and closing -/

/-- A start tag of a void element adds the element. -/
theorem start_of_isVoid (b : Builder) {t : Tag} (h : isVoid t.name = true) (body : Option Token) :
    b.start ⟨t, [], .bracket, body⟩ = b.append (.element t []) := by
  simp [start, h]

/-- Any other start tag opens an element. -/
theorem start_of_not_isVoid (b : Builder) {t : Tag} (h : isVoid t.name = false) :
    b.start ⟨t, [], .bracket, none⟩ = { b with stack := ⟨t, []⟩ :: b.stack } := by
  simp [start, h]

/-- The text of a raw-text element is its first child. -/
theorem start_body (b : Builder) {t : Tag} (h : isVoid t.name = false) (body : Token) :
    b.start ⟨t, [], .bracket, some body⟩ = { b with stack := ⟨t,
      [.text (if isEscapable t.name then Reference.decode body.text else body.text) body.span]⟩
        :: b.stack } := by
  simp [start, h]

/-- An end tag closes the innermost element if that has its name. -/
theorem stop_of_name_eq (b : Builder) (f : Frame) (rest : List Frame) {name : String}
    (h : f.tag.name = name) (span : Span) :
    { b with stack := f :: rest }.stop ⟨name, span, true⟩
      = { b with stack := rest }.append (Frame.closedBy f ⟨name, span, true⟩) := by
  simp [stop, h, popMany, List.findIdx?_cons]

/-- Nodes that are added to an open element are its latest children. -/
theorem foldl_append_frame (b : Builder) (f : Frame) (rest : List Frame) (nodes : List Node) :
    nodes.foldl append { b with stack := f :: rest }
      = { b with stack := { f with children := nodes.reverse ++ f.children } :: rest } := by
  induction nodes generalizing f with
  | nil => rfl
  | cons node nodes ih =>
    rw [List.foldl_cons, append, ih, List.reverse_cons, List.append_assoc]
    rfl

/-- Nodes that are added at the top level are the latest there. -/
theorem foldl_append_roots (roots : List Node) (reports : List Diagnostic) (nodes : List Node) :
    nodes.foldl append ⟨roots, [], reports⟩ = ⟨nodes.reverse ++ roots, [], reports⟩ := by
  induction nodes generalizing roots with
  | nil => rfl
  | cons node nodes ih =>
    rw [List.foldl_cons, append, ih, List.reverse_cons, List.append_assoc]
    rfl

/-- An element that its end tag closes, up to places. -/
theorem unplaced_closedBy {t t' : Tag} (ht : t'.unplaced = t.unplaced) {nodes nodes' : List Node}
    (hn : nodes'.map Node.unplaced = nodes.map Node.unplaced) (e : EndTag) :
    (Frame.closedBy ⟨t', nodes'.reverse⟩ e).unplaced = (Node.element t nodes).unplaced := by
  rw [Frame.closedBy, Node.unplaced, Node.unplaced, List.reverse_reverse, unplacedAll_eq_map,
    unplacedAll_eq_map, hn]
  exact congrArg (Node.element · _) ht

/-! ## Markup that adds nodes -/

/-- In front of `rest`, the text `s` adds nodes to what a builder has so far, whatever that is. The
nodes have places of their own. -/
def Reads (s : List Char) (nodes : List Node) (rest : List Char) : Prop :=
  ∀ o b, ∃ (nodes' : List Node) (o' : Nat), nodes'.map Node.unplaced = nodes.map Node.unplaced ∧
    run o b (s ++ rest) = run o' (nodes'.foldl append b) rest

theorem reads_nil (rest : List Char) : Reads [] [] rest := by
  intro o b
  exact ⟨[], o, rfl, rfl⟩

/-- A text behind another adds its nodes behind those of the other. -/
theorem Reads.append {s s' rest : List Char} {nodes nodes' : List Node}
    (h : Reads s nodes (s' ++ rest)) (h' : Reads s' nodes' rest) :
    Reads (s ++ s') (nodes ++ nodes') rest := by
  intro o b
  obtain ⟨first, o₁, hfirst, hrun⟩ := h o b
  obtain ⟨second, o₂, hsecond, hrun'⟩ := h' o₁ (first.foldl Builder.append b)
  refine ⟨first ++ second, o₂, by rw [List.map_append, List.map_append, hfirst, hsecond], ?_⟩
  rw [List.append_assoc, hrun, hrun', List.foldl_append]

/-- A text with one event, which adds a node. -/
theorem reads_of_event {s rest : List Char} {node : Node} {e : Span → Event} {n : Span → Node}
    (h : ∀ o, ∃ span o', eventsAt o (s ++ rest) = e span :: eventsAt o' rest)
    (hn : ∀ span, (n span).unplaced = node.unplaced)
    (hstep : ∀ span b, step b (e span) = b.append (n span)) : Reads s [node] rest := by
  intro o b
  obtain ⟨span, o', hevents⟩ := h o
  refine ⟨[n span], o', by rw [List.map_singleton, List.map_singleton, hn], ?_⟩
  rw [run_of_cons hevents, hstep]
  rfl

/-! ## Elements -/

theorem isRawText_of_isVoid {name : String} (h : isVoid name = true) : isRawText name = false := by
  have hall : ∀ n ∈ voidNames, isRawText n = false := by decide
  exact hall name (List.contains_iff_mem.mp h)

theorem bracket_notMem_of_isRawText {name : String} (h : isRawText name = true) :
    '<' ∉ name.toList := by
  have hall : ∀ n ∈ rawTextNames, '<' ∉ n.toList := by decide
  exact hall name (List.contains_iff_mem.mp h)

/-- A void element is its start tag. -/
theorem reads_void {t : Tag} (ht : t.Canonical) (hvoid : isVoid t.name = true)
    (rest : List Char) : Reads t.renderStart [.element t []] rest := by
  intro o b
  obtain ⟨t', o', ht', hevents⟩ := eventsAt_renderStart o ht (isRawText_of_isVoid hvoid) rest
  have hvoid' : isVoid t'.name = true := Tag.name_of_unplaced ht' ▸ hvoid
  refine ⟨[.element t' []], o', congrArg (fun t => [Node.element t []]) ht', ?_⟩
  rw [run_of_cons hevents]
  exact congrArg (run o' · rest) (start_of_isVoid b hvoid' none)

/-- An element that is neither void nor raw text is its children between its tags. -/
theorem reads_element {t : Tag} (ht : t.Canonical) (hvoid : isVoid t.name = false)
    (hraw : isRawText t.name = false) {body rest : List Char} {children : List Node}
    (hbody : Reads body children (renderEnd t.name ++ rest)) :
    Reads (t.renderStart ++ (body ++ renderEnd t.name)) [.element t children] rest := by
  intro o b
  obtain ⟨t', o₁, ht', hstart⟩ :=
    eventsAt_renderStart o ht hraw (body ++ (renderEnd t.name ++ rest))
  have hname : t'.name = t.name := Tag.name_of_unplaced ht'
  obtain ⟨children', o₂, hchildren, hrun⟩ := hbody o₁ { b with stack := ⟨t', []⟩ :: b.stack }
  obtain ⟨span, o₃, hend⟩ := eventsAt_renderEnd o₂ ht.name rest
  refine ⟨[Frame.closedBy ⟨t', children'.reverse⟩ ⟨t.name, span, true⟩], o₃, ?_, ?_⟩
  · exact congrArg ([·]) (unplaced_closedBy ht' hchildren _)
  · calc run o b (t.renderStart ++ (body ++ renderEnd t.name) ++ rest)
        = run o b (t.renderStart ++ (body ++ (renderEnd t.name ++ rest))) := by
          rw [List.append_assoc, List.append_assoc]
      _ = run o₁ { b with stack := ⟨t', []⟩ :: b.stack } (body ++ (renderEnd t.name ++ rest)) := by
          rw [run_of_cons hstart, step, start_of_not_isVoid b (hname ▸ hvoid)]
      _ = run o₂ { b with stack := ⟨t', children'.reverse⟩ :: b.stack }
            (renderEnd t.name ++ rest) := by
          rw [hrun, foldl_append_frame, List.append_nil]
      _ = run o₃ (b.append (Frame.closedBy ⟨t', children'.reverse⟩ ⟨t.name, span, true⟩)) rest := by
          rw [run_of_cons hend, step, stop_of_name_eq _ _ _ hname]

theorem isVoid_of_isRawText {name : String} (h : isRawText name = true) : isVoid name = false := by
  rw [Bool.eq_false_iff]
  intro hvoid
  rw [isRawText_of_isVoid hvoid] at h
  cases h

/-- A raw-text element whose body is read as the given children. -/
theorem reads_rawElement {t : Tag} (ht : t.Canonical) (hraw : isRawText t.name = true)
    {body rest : List Char} {children : List Node}
    (hbody : NeverCloses t.name.toList body (renderEnd t.name ++ rest))
    (hchildren : ∀ token : Option Token,
      token.map (·.text) = (if body = [] then none else some (String.ofList body)) →
      ∀ (b : Builder) (t' : Tag), t'.name = t.name → ∃ children' : List Node,
        children'.map Node.unplaced = children.map Node.unplaced ∧
        b.start ⟨t', [], .bracket, token⟩
          = { b with stack := ⟨t', children'.reverse⟩ :: b.stack }) :
    Reads (t.renderStart ++ (body ++ renderEnd t.name)) [.element t children] rest := by
  intro o b
  obtain ⟨t', token, span, o', ht', htoken, hevents⟩ := eventsAt_rawElement o ht hraw hbody
  have hname : t'.name = t.name := Tag.name_of_unplaced ht'
  obtain ⟨children', hc, hstart⟩ := hchildren token htoken b t' hname
  refine ⟨[Frame.closedBy ⟨t', children'.reverse⟩ ⟨t.name, span, true⟩], o', ?_, ?_⟩
  · exact congrArg ([·]) (unplaced_closedBy ht' hc _)
  · rw [List.append_assoc, List.append_assoc, run, hevents, List.foldl_cons, List.foldl_cons, step,
      hstart, step, stop_of_name_eq _ _ _ hname]
    rfl

/-- A raw-text element without a text. -/
theorem reads_rawElement_nil {t : Tag} (ht : t.Canonical) (hraw : isRawText t.name = true)
    (rest : List Char) : Reads (t.renderStart ++ renderEnd t.name) [.element t []] rest := by
  show Reads (t.renderStart ++ ([] ++ renderEnd t.name)) [.element t []] rest
  refine reads_rawElement ht hraw ?_ ?_
  · exact neverCloses_of_notMem _ _ List.not_mem_nil
  · intro token htoken b t' hname
    obtain rfl : token = none := by simpa using htoken
    exact ⟨[], rfl, start_of_not_isVoid b (hname ▸ isVoid_of_isRawText hraw)⟩

/-- A raw-text element with a text, which is decoded if it was written with references. -/
theorem reads_rawElement_text {t : Tag} (ht : t.Canonical) (hraw : isRawText t.name = true)
    {s : String} {span : Span} (hs : (Node.text s span).IsBody t.name) (rest : List Char) :
    Reads (t.renderStart ++ ((Node.text s span).render (isVerbatim t.name) ++ renderEnd t.name))
      [.element t [.text s span]] rest := by
  obtain ⟨hne, hclose⟩ := hs
  have hne : s.toList ≠ [] := by simpa using hne
  have hverbatim : isVerbatim t.name = !isEscapable t.name := by
    rw [isVerbatim, hraw, Bool.true_and]
  rw [Node.render]
  refine reads_rawElement ht hraw ?_ ?_
  · cases hv : isVerbatim t.name with
    | true =>
      exact neverCloses_of_not_infix ht.name (bracket_notMem_of_isRawText hraw) (hclose hv) _
    | false => exact neverCloses_of_notMem _ _ (Mark.bracket_notMem_escape _)
  · intro token htoken b t' hname
    rw [hverbatim] at htoken
    have hbody : (if (!isEscapable t.name) = true then s.toList else Mark.bracket.escape s.toList)
        ≠ [] := by
      split
      · exact hne
      · exact Mark.bracket.escape_ne_nil hne
    rw [if_neg hbody] at htoken
    obtain ⟨tok, rfl, htext⟩ := Option.map_eq_some_iff.mp htoken
    have hvalue : (if isEscapable t'.name then Reference.decode tok.text else tok.text) = s := by
      rw [hname, htext]
      cases isEscapable t.name with
      | true => exact decode_escape Mark.bracket s
      | false => exact String.ofList_toList
    refine ⟨[.text s tok.span], rfl, ?_⟩
    rw [start_body b (hname ▸ isVoid_of_isRawText hraw), hvalue]
    rfl

end Builder

/-! ## Forests -/

open Builder

theorem beginsMarkup_render {node : Node} (h : node.Canonical) (htext : node.isText = false)
    (rest : List Char) : beginsMarkup (node.render false ++ rest) = true := by
  cases node with
  | element t children =>
    rw [Node.render, List.append_assoc]
    exact beginsMarkup_renderStart h.1 _
  | text s span => cases htext
  | comment s span => rfl
  | other kind s span => cases kind <;> rfl

/-- A text may stand in front of a forest that does not begin with text. -/
theorem stopsText_renderAll {nodes : List Node} (h : CanonicalAll nodes)
    (htext : ¬ nodes.head?.any Node.isText) {rest : List Char} (hrest : StopsText rest) :
    StopsText (renderAll false nodes ++ rest) := by
  cases nodes with
  | nil => exact hrest
  | cons node nodes =>
    rw [renderAll, List.append_assoc]
    exact .inr (beginsMarkup_render h.1 (by simpa using htext) _)

mutual

/-- The markup of a node adds that node. -/
theorem reads_render : ∀ (node : Node), node.Canonical → ∀ rest : List Char,
    (node.isText = true → StopsText rest) → Reads (node.render false) [node] rest
  | .element t children, h, rest, _ => by
    obtain ⟨ht, hbody⟩ := h
    rw [Node.render]
    cases hvoid : isVoid t.name with
    | true =>
      rw [hvoid, if_pos rfl] at hbody
      rw [hbody, if_pos rfl, List.append_nil]
      exact reads_void ht hvoid rest
    | false =>
      rw [hvoid, if_neg Bool.false_ne_true] at hbody
      rw [if_neg Bool.false_ne_true]
      cases hraw : isRawText t.name with
      | true =>
        rw [hraw, if_pos rfl] at hbody
        obtain ⟨hlength, hall⟩ := hbody
        match children with
        | [] => exact reads_rawElement_nil ht hraw rest
        | [.text s span] =>
          rw [renderAll, renderAll, List.append_nil]
          exact reads_rawElement_text ht hraw (hall _ (List.mem_singleton.mpr rfl)) rest
        | [.element _ _] | [.comment _ _] | [.other _ _ _] =>
          exact (hall _ (List.mem_singleton.mpr rfl)).elim
        | _ :: _ :: _ => simp at hlength
      | false =>
        rw [hraw, if_neg Bool.false_ne_true] at hbody
        have hverbatim : isVerbatim t.name = false := by rw [isVerbatim, hraw, Bool.false_and]
        rw [hverbatim]
        -- What follows the children is the end tag, which stops a text at their end.
        exact reads_element ht hvoid hraw (reads_renderAll children hbody _
          (.inr (beginsMarkup_renderEnd ht.name rest)))
  | .text s span, h, rest, hrest =>
    reads_of_event (n := .text s) (fun o => eventsAt_text o h (hrest rfl)) (fun _ => rfl)
      fun _ _ => rfl
  | .comment s span, h, rest, _ =>
    reads_of_event (n := .comment s) (fun o => eventsAt_comment o h rest) (fun _ => rfl)
      fun _ _ => rfl
  | .other kind s span, h, rest, _ =>
    reads_of_event (n := .other kind s) (fun o => eventsAt_other o h rest) (fun _ => rfl)
      fun _ _ => rfl

/-- The markup of a forest adds its nodes. -/
theorem reads_renderAll : ∀ (nodes : List Node), CanonicalAll nodes → ∀ rest : List Char,
    StopsText rest → Reads (renderAll false nodes) nodes rest
  | [], _, rest, _ => reads_nil rest
  | node :: nodes, h, rest, hrest => by
    obtain ⟨hnode, hadjacent, hnodes⟩ := h
    -- What follows a text is no text, so that the text stops in front of it.
    have hfollow : node.isText = true → StopsText (renderAll false nodes ++ rest) := by
      intro htext
      exact stopsText_renderAll hnodes (fun hhead => hadjacent ⟨htext, hhead⟩) hrest
    exact (reads_render node hnode _ hfollow).append (reads_renderAll nodes hnodes rest hrest)

end

/-- **Parsing recovers every forest in canonical form** from its markup, up to places, and has
nothing to report. -/
theorem parse_render {nodes : List Node} (h : CanonicalAll nodes) :
    unplacedAll (parse (render nodes)).nodes = unplacedAll nodes ∧
      (parse (render nodes)).diagnostics = [] := by
  obtain ⟨nodes', o', hnodes, hrun⟩ := reads_renderAll nodes h [] (.inl rfl) 0 {}
  have hbuilder : (eventsOf (tokenize (render nodes))).foldl Builder.step {}
      = ⟨nodes'.reverse, [], []⟩ := by
    rw [List.append_nil, run_nil, foldl_append_roots, List.append_nil] at hrun
    rw [← hrun, tokenize, render, String.toList_ofList]
    rfl
  have hparse : parse (render nodes) = ⟨nodes', []⟩ := by
    rw [parse, Document.ofEvents, hbuilder]
    simp [finish, popMany]
  rw [hparse, unplacedAll_eq_map, unplacedAll_eq_map]
  exact ⟨hnodes, rfl⟩

/-- Text that looks like a reference, a quote in a value, a comment that ends in dashes, a script
that almost holds its end tag, and a title that holds its own. -/
theorem parse_render_almost_closed :
    let nodes : List Node :=
      [.text "&lt;" {}, .element { name := "p", attributes := [⟨"x", "\"", {}⟩] }
        [.comment "--" {}, .element { name := "br" } [],
          .element { name := "script" } [.text "</scrip</" {}],
          .element { name := "title" } [.text "</title>" {}]], .other .doctype "-" {}]
    render nodes = "&amp;lt;<p x=\"&quot;\"><!------><br><script></scrip</</script>" ++
        "<title>&lt;/title></title></p><!->" ∧
      unplacedAll (parse (render nodes)).nodes = nodes ∧
      (parse (render nodes)).diagnostics = [] := by
  refine ⟨by decide +kernel, parse_render ?_⟩
  decide +kernel

end Stencil.Markup
