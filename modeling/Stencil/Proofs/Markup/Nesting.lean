import Stencil.Proofs.Emit.Denotation
import Stencil.Proofs.Markup.Placement

/-!
# Spans are nested

The span of an element is set when its start tag is read and mended when the element is closed, by
its own end tag, by that of an element around it, or by the end of the source. Whichever it is, the
span then holds the attributes of the element and behind them its children, one behind the other.

What makes this go through is kept for the elements that are open: everything in front of an open
element ends where its start tag begins, and its children so far stand behind that tag. Events only
stand behind what was built so far, so they keep it.

## Main definitions

* `Node.preorder`, `preorderAll`: a node and a forest with all that is in them, in the order of the
  source
* `Node.Placed`, `ForestPlaced`: nodes whose spans hold what is in them
* `FramesPlaced`, `Builder.Placed`: what is kept for the elements that are open
* `Span.Inside`, `Span.Within`, `Span.Before`, `Tag.Encloses`: how spans stand to the source and to
  each other

## Main results

* `Builder.Placed.step`, `Builder.Placed.foldl_step`: events keep what is kept for open elements
* `placed_parse`: the forest and the reports of a source stand in the source
* `placed_reports`: what a compiler reports of a forest stands where the forest does
* `spans_nested_parse`: **spans form a nested, ordered forest inside the source**
-/

namespace Stencil

/-! ## How spans stand to a source and to each other -/

/-- A span of a source: it is not empty, and it begins and ends at boundaries of characters. -/
structure Span.Inside (source : String) (s : Span) : Prop where
  lt : s.start < s.stop
  le : s.stop ≤ source.utf8ByteSize
  start : String.Pos.Raw.IsValid source ⟨s.start⟩
  stop : String.Pos.Raw.IsValid source ⟨s.stop⟩

/-- A span that another one holds. -/
def Span.Within (s outer : Span) : Prop :=
  outer.start ≤ s.start ∧ s.stop ≤ outer.stop

/-- A span that ends before another one begins. -/
def Span.Before (s s' : Span) : Prop :=
  s.stop ≤ s'.start

theorem Span.Sound.inside {source : String} {s : Span} (h : s.Sound (Markup.IsBoundary source)) :
    s.Inside source where
  lt := h.lt
  le := h.stop.le_rawEndPos
  start := h.start
  stop := h.stop

/-- A report whose span and related spans are spans of a source. -/
structure Diagnostic.Inside (source : String) (d : Diagnostic) : Prop where
  span : d.span.Inside source
  related : ∀ note ∈ d.related, note.span.Inside source

/-- A report whose span and related spans are sound. -/
structure Diagnostic.Placed (P : Nat → Prop) (d : Diagnostic) : Prop where
  span : d.span.Sound P
  related : ∀ note ∈ d.related, note.span.Sound P

theorem Diagnostic.placed_of_span {P : Nat → Prop} {d : Diagnostic} (h : d.span.Sound P)
    (hrelated : d.related = []) : d.Placed P where
  span := h
  related := by
    rw [hrelated]
    exact List.forall_mem_nil _

theorem Diagnostic.Placed.inside {source : String} {d : Diagnostic}
    (h : d.Placed (Markup.IsBoundary source)) : d.Inside source where
  span := h.span.inside
  related := fun note hnote => (h.related note hnote).inside

namespace Markup

open Stencil.Text

/-! ## All nodes of a forest -/

mutual

/-- A node and all that is in it, in the order of the source. -/
def Node.preorder : Node → List Node
  | .element t children => .element t children :: preorderAll children
  | .text s span => [.text s span]
  | .comment s span => [.comment s span]
  | .other kind s span => [.other kind s span]

/-- The nodes of a forest and all that is in them, in the order of the source. -/
def preorderAll : List Node → List Node
  | [] => []
  | node :: rest => node.preorder ++ preorderAll rest

end

theorem preorderAll_append (nodes nodes' : List Node) :
    preorderAll (nodes ++ nodes') = preorderAll nodes ++ preorderAll nodes' := by
  induction nodes with
  | nil => rfl
  | cons node nodes ih => rw [List.cons_append, preorderAll, preorderAll, ih, List.append_assoc]

theorem preorderAll_singleton (node : Node) : preorderAll [node] = node.preorder :=
  List.append_nil _

theorem mem_preorder_self (node : Node) : node ∈ node.preorder := by
  cases node <;> exact List.mem_cons_self ..

/-! ## Nodes whose spans hold what is in them -/

/-- A node whose span is sound and, for an element, holds its attributes and behind them its
children, one behind the other. -/
def Node.Placed (P : Nat → Prop) : Node → Prop
  | .element t children => t.span.Sound P ∧
      Laid P t.span.start (t.attributes.map (·.span) ++ children.map Node.span) t.span.stop
  | .text _ span | .comment _ span | .other _ _ span => span.Sound P

/-- A forest whose trees stand one behind the other between two offsets, and in which every node
holds what is in it. -/
structure ForestPlaced (P : Nat → Prop) (lo : Nat) (nodes : List Node) (hi : Nat) : Prop where
  laid : Laid P lo (nodes.map Node.span) hi
  placed : ∀ node ∈ preorderAll nodes, node.Placed P

section ForestPlaced

variable {P : Nat → Prop} {lo mid hi lo' hi' : Nat} {nodes nodes' : List Node}

theorem forestPlaced_nil (h : lo ≤ hi) : ForestPlaced P lo [] hi where
  laid := h
  placed := List.forall_mem_nil _

theorem ForestPlaced.mono (h : ForestPlaced P lo nodes hi) (hlo : lo' ≤ lo) (hhi : hi ≤ hi') :
    ForestPlaced P lo' nodes hi' where
  laid := h.laid.mono hlo hhi
  placed := h.placed

theorem ForestPlaced.append (h : ForestPlaced P lo nodes mid) (h' : ForestPlaced P mid nodes' hi) :
    ForestPlaced P lo (nodes ++ nodes') hi where
  laid := by
    rw [List.map_append]
    exact laid_append.mpr ⟨mid, h.laid, h'.laid⟩
  placed := by
    intro node hnode
    rw [preorderAll_append] at hnode
    rcases List.mem_append.mp hnode with hnode | hnode
    · exact h.placed node hnode
    · exact h'.placed node hnode

/-- A node without children is a forest. -/
theorem forestPlaced_leaf {node : Node} (hnode : node.preorder = [node]) (hplaced : node.Placed P)
    (h : Laid P lo [node.span] hi) : ForestPlaced P lo [node] hi where
  laid := h
  placed := by
    intro x hx
    rw [preorderAll_singleton, hnode, List.mem_singleton] at hx
    rwa [hx]

/-- An element is a forest if its attributes and its children stand in its span. -/
theorem forestPlaced_element {t : Tag} {children : List Node} (ht : Laid P lo [t.span] hi)
    (hattributes : Laid P t.span.start (t.attributes.map (·.span)) mid)
    (hchildren : ForestPlaced P mid children t.span.stop) :
    ForestPlaced P lo [.element t children] hi where
  laid := ht
  placed := by
    intro node hnode
    rw [preorderAll_singleton, Node.preorder] at hnode
    rcases List.mem_cons.mp hnode with rfl | hnode
    · exact ⟨ht.2.1, laid_append.mpr ⟨mid, hattributes, hchildren.laid⟩⟩
    · exact hchildren.placed node hnode

end ForestPlaced

/-! ## Elements that are open -/

/-- What is kept for the elements that are open, innermost first: an element has a sound span, its
attributes stand in it and its children behind it, and everything around the element ends where it
begins. -/
def FramesPlaced (P : Nat → Prop) (roots : List Node) : List Frame → Nat → Prop
  | [], hi => ForestPlaced P 0 roots.reverse hi
  | f :: rest, hi => f.tag.span.Sound P ∧
      Laid P f.tag.span.start (f.tag.attributes.map (·.span)) f.tag.span.stop ∧
      ForestPlaced P f.tag.span.stop f.children.reverse hi ∧
      FramesPlaced P roots rest f.tag.span.start

/-- What is kept for a builder that has read up to an offset. -/
structure Builder.Placed (P : Nat → Prop) (b : Builder) (hi : Nat) : Prop where
  frames : FramesPlaced P b.roots b.stack hi
  reports : ∀ d ∈ b.reports, d.Placed P

namespace Builder

variable {P : Nat → Prop} {lo hi hi' : Nat} {b : Builder}

theorem Placed.mono (h : b.Placed P hi) (hhi : hi ≤ hi') : b.Placed P hi' where
  frames := by
    have hframes := h.frames
    cases hstack : b.stack with
    | nil =>
      rw [hstack] at hframes
      exact ForestPlaced.mono hframes le_rfl hhi
    | cons f rest =>
      rw [hstack] at hframes
      obtain ⟨htag, hattributes, hchildren, hrest⟩ := hframes
      exact ⟨htag, hattributes, hchildren.mono le_rfl hhi, hrest⟩
  reports := h.reports

theorem Placed.report (h : b.Placed P hi) {d : Diagnostic} (hd : d.Placed P) :
    (b.report d).Placed P hi where
  frames := h.frames
  reports := by
    intro d' hd'
    rcases List.mem_cons.mp hd' with rfl | hd'
    · exact hd
    · exact h.reports d' hd'

theorem Placed.report_if (h : b.Placed P hi) {c : Bool} {d : Diagnostic} (hd : d.Placed P) :
    Placed P (if c then b else b.report d) hi := by
  split
  · exact h
  · exact h.report hd

/-- A node is added behind what was built so far. -/
theorem Placed.append (h : b.Placed P lo) {node : Node} (hnode : ForestPlaced P lo [node] hi) :
    (b.append node).Placed P hi := by
  have hframes := h.frames
  obtain ⟨roots, stack, reports⟩ := b
  cases stack with
  | nil =>
    refine ⟨?_, h.reports⟩
    show ForestPlaced P 0 (node :: roots).reverse hi
    rw [List.reverse_cons]
    exact ForestPlaced.append hframes hnode
  | cons f rest =>
    obtain ⟨htag, hattributes, hchildren, hrest⟩ := hframes
    refine ⟨⟨htag, hattributes, ?_, hrest⟩, h.reports⟩
    show ForestPlaced P f.tag.span.stop (node :: f.children).reverse hi
    rw [List.reverse_cons]
    exact hchildren.append hnode

/-! ## Closing elements -/

/-- An element that no end tag closes reaches to the end of its last child, and begins where its
start tag begins. -/
theorem span_implicit {f : Frame} (htag : f.tag.span.Sound P)
    (hchildren : ForestPlaced P f.tag.span.stop f.children.reverse hi) :
    ∃ stop, (Frame.implicit f).span = ⟨f.tag.span.start, stop⟩ ∧ P stop ∧ stop ≤ hi ∧
      ForestPlaced P f.tag.span.stop f.children.reverse stop := by
  obtain ⟨tag, children⟩ := f
  cases children with
  | nil =>
    refine ⟨tag.span.stop, rfl, htag.stop, hchildren.laid.le, forestPlaced_nil le_rfl⟩
  | cons last others =>
    rw [List.reverse_cons] at hchildren ⊢
    have hlaid := hchildren.laid
    rw [List.map_append] at hlaid
    obtain ⟨mid, hothers, hlast⟩ := laid_append.mp hlaid
    obtain ⟨hmid, hsound, hstop⟩ := laid_singleton.mp hlast
    -- The last child begins behind the start tag, so that it does not move the begin of the span.
    have hcover : tag.span.cover last.span = ⟨tag.span.start, last.span.stop⟩ :=
      Span.cover_eq htag.lt hsound.lt (hothers.le.trans hmid)
    refine ⟨last.span.stop, hcover, hsound.stop, hstop, ?_, hchildren.placed⟩
    rw [List.map_append]
    exact laid_append.mpr ⟨mid, hothers, laid_singleton.mpr ⟨hmid, hsound, le_rfl⟩⟩

/-- An element that is closed at an offset, with all that was added to it. -/
theorem forestPlaced_of_frame {f : Frame} {stop : Nat} (htag : f.tag.span.Sound P) (hP : P stop)
    (hattributes : Laid P f.tag.span.start (f.tag.attributes.map (·.span)) f.tag.span.stop)
    (hchildren : ForestPlaced P f.tag.span.stop f.children.reverse stop) (hhi : stop ≤ hi) :
    ForestPlaced P f.tag.span.start
      [.element { f.tag with span := ⟨f.tag.span.start, stop⟩ } f.children.reverse] hi := by
  have hspan : Span.Sound P ⟨f.tag.span.start, stop⟩ :=
    { lt := htag.lt.trans_le hchildren.laid.le
      start := htag.start
      stop := hP }
  exact forestPlaced_element ⟨le_rfl, hspan, hhi⟩ hattributes hchildren

theorem implicit_eq {f : Frame} {span : Span} (h : (Frame.implicit f).span = span) :
    Frame.implicit f = .element { f.tag with span } f.children.reverse := by
  subst h
  rfl

/-- The innermost element is closed without an end tag of its own. -/
theorem Placed.popImplicit (h : b.Placed P hi) {related : List Diagnostic.Note}
    (hrelated : ∀ note ∈ related, note.span.Sound P) : (b.popImplicit related).Placed P hi := by
  obtain ⟨roots, stack, reports⟩ := b
  cases stack with
  | nil => exact h
  | cons f rest =>
    obtain ⟨htag, hattributes, hchildren, hrest⟩ := h.frames
    obtain ⟨stop, hspan, hP, hstop, hforest⟩ := span_implicit htag hchildren
    have houter : Placed P ⟨roots, rest, reports⟩ f.tag.span.start := ⟨hrest, h.reports⟩
    refine Placed.append (houter.report ⟨htag, hrelated⟩) ?_
    rw [implicit_eq hspan]
    exact forestPlaced_of_frame htag hP hattributes hforest hstop

theorem Placed.popMany (h : b.Placed P hi) {related : List Diagnostic.Note}
    (hrelated : ∀ note ∈ related, note.span.Sound P) (n : Nat) :
    (b.popMany related n).Placed P hi := by
  induction n generalizing b with
  | zero => exact h
  | succ n ih => exact ih (h.popImplicit hrelated)

/-! ## Events -/

theorem Placed.foldl_report (h : b.Placed P hi) {strays : List Token}
    (hstrays : ∀ t ∈ strays, t.span.Sound P) :
    (strays.foldl (fun b t => b.report (.about .malformedAttribute t.span t.text)) b).Placed
      P hi := by
  induction strays generalizing b with
  | nil => exact h
  | cons t strays ih =>
    refine ih (h.report ?_) fun x hx => hstrays x (List.mem_cons_of_mem t hx)
    exact Diagnostic.placed_of_span (hstrays t (List.mem_cons_self ..)) rfl

/-- A start tag keeps what is kept for open elements, whether it opens one or not. -/
theorem Placed.start (h : b.Placed P lo) {s : StartTag} (hs : s.Placed P lo hi) :
    (b.start s).Placed P hi := by
  obtain ⟨hlo, htag, hbody⟩ := hs.tag
  have hb := h.foldl_report hs.strays
  have hempty : ForestPlaced P lo [.element s.tag []] hi :=
    forestPlaced_element ⟨hlo, htag, hbody.le⟩ hs.attributes (forestPlaced_nil le_rfl)
  dsimp only [Builder.start]
  split
  · exact (hb.report (Diagnostic.placed_of_span htag rfl)).append hempty
  split
  · exact hb.append hempty
  · refine ⟨⟨htag, hs.attributes, ?_, (hb.mono hlo).frames⟩, hb.reports⟩
    cases hbodyEq : s.body with
    | none =>
      rw [hbodyEq] at hbody
      exact forestPlaced_nil hbody
    | some t =>
      rw [hbodyEq] at hbody
      exact forestPlaced_leaf rfl hbody.2.1 hbody

/-- What an end tag does: it closes elements without end tags of their own, and then itself closes
nothing or the innermost element that is left. -/
theorem stop_cases (b : Builder) (t : EndTag) :
    ∃ n popped, popped =
        (if t.terminated then b else b.report { kind := .unterminatedTag, span := t.span }).popMany
          [⟨"closed by `</" ++ t.name ++ ">`", t.span⟩] n ∧
      (b.stop t = popped ∨ b.stop t = popped.report (strayReport t) ∨
        ∃ f rest, popped.stack = f :: rest ∧
          b.stop t = { popped with stack := rest }.append (Frame.closedBy f t)) := by
  dsimp only [Builder.stop]
  generalize (if t.terminated then b else b.report _) = reported
  split
  · exact ⟨0, _, rfl, .inr (.inl rfl)⟩
  · rename_i n _
    refine ⟨n, _, rfl, ?_⟩
    split
    · exact .inl rfl
    · rename_i f rest hstack
      exact .inr (.inr ⟨f, rest, hstack, rfl⟩)

/-- An end tag keeps what is kept for open elements, whether it closes one or not. -/
theorem Placed.stop (h : b.Placed P lo) {t : EndTag} (ht : Laid P lo [t.span] hi) :
    (b.stop t).Placed P hi := by
  obtain ⟨hlo, hsound, hhi⟩ := laid_singleton.mp ht
  have hlohi : lo ≤ hi := ht.le
  obtain ⟨n, popped, hpopped, hstop⟩ := stop_cases b t
  have hplaced : popped.Placed P lo := by
    rw [hpopped]
    refine (h.report_if (Diagnostic.placed_of_span hsound rfl)).popMany ?_ n
    exact List.forall_mem_singleton.mpr hsound
  rcases hstop with hstop | hstop | ⟨f, rest, hstack, hstop⟩
  · rw [hstop]
    exact hplaced.mono hlohi
  · rw [hstop]
    exact (hplaced.report (Diagnostic.placed_of_span hsound rfl)).mono hlohi
  · rw [hstop]
    have hframes := hplaced.frames
    rw [hstack] at hframes
    obtain ⟨htag, hattributes, hchildren, hrest⟩ := hframes
    have houter : Placed P { popped with stack := rest } f.tag.span.start :=
      ⟨hrest, hplaced.reports⟩
    refine houter.append ?_
    exact forestPlaced_of_frame htag hsound.stop hattributes
      (hchildren.mono le_rfl (hlo.trans hsound.lt.le)) hhi

/-- **An event keeps what is kept for open elements.** -/
theorem Placed.step (h : b.Placed P lo) {e : Event} (he : e.Placed P lo hi) :
    (b.step e).Placed P hi := by
  cases e with
  | text s span => exact h.append (forestPlaced_leaf rfl he.2.1 he)
  | comment s span terminated =>
    have hb := h.report_if (c := terminated) (d := { kind := .unterminatedComment, span })
      (Diagnostic.placed_of_span he.2.1 rfl)
    exact hb.append (forestPlaced_leaf rfl he.2.1 he)
  | other kind s span => exact h.append (forestPlaced_leaf rfl he.2.1 he)
  | start s => exact h.start he
  | stop t => exact h.stop he

/-- **Events in a row keep what is kept for open elements.** -/
theorem Placed.foldl_step (h : b.Placed P lo) {events : List Event}
    (he : EventsPlaced P lo events hi) : (events.foldl Builder.step b).Placed P hi := by
  induction events generalizing b lo with
  | nil => exact h.mono he
  | cons e events ih =>
    obtain ⟨mid, hfirst, hrest⟩ := he
    exact ih (h.step hfirst) hrest

theorem placed_empty (P : Nat → Prop) : Placed P {} 0 where
  frames := forestPlaced_nil le_rfl
  reports := List.forall_mem_nil _

/-! ## The end of the source -/

theorem length_stack_append (b : Builder) (node : Node) :
    (b.append node).stack.length = b.stack.length := by
  unfold append
  split <;> rename_i h <;> simp [h]

theorem length_stack_popImplicit (b : Builder) (related : List Diagnostic.Note) :
    (b.popImplicit related).stack.length = b.stack.length - 1 := by
  unfold popImplicit
  split
  · rename_i h
    rw [h]
    rfl
  · rename_i h
    rw [length_stack_append, h]
    rfl

theorem length_stack_popMany (b : Builder) (related : List Diagnostic.Note) (n : Nat) :
    (b.popMany related n).stack.length = b.stack.length - n := by
  induction n generalizing b with
  | zero => rfl
  | succ n ih =>
    rw [popMany, ih, length_stack_popImplicit]
    omega

/-- No element is open in the end. -/
theorem stack_finish (b : Builder) : b.finish.stack = [] := by
  rw [← List.length_eq_zero_iff, finish, length_stack_popMany, Nat.sub_self]

end Builder

/-- The forest and the reports of a source stand in the source. -/
theorem placed_parse (source : String) :
    ForestPlaced (IsBoundary source) 0 (parse source).nodes source.utf8ByteSize ∧
      ∀ d ∈ (parse source).diagnostics, d.Placed (IsBoundary source) := by
  have hevents := eventsPlaced_eventsOf (laid_tokenize source)
  have hbuilder := (Builder.placed_empty (IsBoundary source)).foldl_step hevents
  have hfinish : Builder.Placed (IsBoundary source)
      ((eventsOf (tokenize source)).foldl Builder.step {}).finish source.utf8ByteSize :=
    hbuilder.popMany (List.forall_mem_nil _) _
  have hframes := hfinish.frames
  -- No element is open, so that what is kept is kept of the top level alone.
  rw [Builder.stack_finish] at hframes
  refine ⟨hframes, ?_⟩
  intro d hd
  exact hfinish.reports d (List.mem_reverse.mp hd)

/-! ## What a compiler reports -/

theorem Node.Placed.sound {P : Nat → Prop} {node : Node} (h : node.Placed P) :
    node.span.Sound P := by
  cases node with
  | element t children => exact h.1
  | text s span => exact h
  | comment s span => exact h
  | other kind s span => exact h

theorem Node.Placed.sound_attribute {P : Nat → Prop} {t : Tag} {children : List Node}
    (h : (Node.element t children).Placed P) {a : Attribute} (ha : a ∈ t.attributes) :
    a.span.Sound P := by
  obtain ⟨-, hlaid⟩ := h
  exact (hlaid.of_mem (List.mem_append_left _ (List.mem_map_of_mem ha))).2.1

/-- A report that is made or not, depending on a test. -/
theorem placed_of_mem_ite {P : Nat → Prop} {p : Prop} [Decidable p] {d d' : Diagnostic}
    (h : d.Placed P) (hd' : d' ∈ if p then [d] else []) : d'.Placed P := by
  split at hd'
  · rwa [List.mem_singleton.mp hd']
  · cases hd'

theorem placed_tagReports {P : Nat → Prop} (c : Config) {t : Tag} {children : List Node}
    (h : (Node.element t children).Placed P) : ∀ d ∈ tagReports c t children, d.Placed P := by
  intro d hd
  rcases List.mem_append.mp hd with hd | hd
  · rcases List.mem_append.mp hd with hd | hd
    · exact placed_of_mem_ite (Diagnostic.placed_of_span h.sound rfl) hd
    · obtain ⟨a, ha, hd⟩ := List.mem_flatMap.mp hd
      exact placed_of_mem_ite (Diagnostic.placed_of_span (h.sound_attribute ha) rfl) hd
  · exact placed_of_mem_ite (Diagnostic.placed_of_span h.sound rfl) hd

mutual

/-- What is reported of a node stands where the node and its attributes do. -/
theorem placed_reports {P : Nat → Prop} (c : Config) : ∀ node : Node,
    (∀ x ∈ node.preorder, x.Placed P) → ∀ d ∈ reports c node, d.Placed P
  | .element t children, h, d, hd => by
    rw [reports] at hd
    rcases List.mem_append.mp hd with hd | hd
    · exact placed_tagReports c (h _ (mem_preorder_self _)) d hd
    · split at hd
      · cases hd
      · exact placed_reportsAll c children (fun x hx => h x (List.mem_cons_of_mem _ hx)) d hd
  | .text s span, h, d, hd => by
    rw [reports] at hd
    exact placed_of_mem_ite (Diagnostic.placed_of_span (h _ (mem_preorder_self _)).sound rfl) hd
  | .comment _ _, _, d, hd => by cases hd
  | .other kind s span, h, d, hd => by
    rw [reports, List.mem_singleton] at hd
    rw [hd]
    exact Diagnostic.placed_of_span (h _ (mem_preorder_self _)) rfl

/-- What is reported of a forest stands where its nodes and their attributes do. -/
theorem placed_reportsAll {P : Nat → Prop} (c : Config) : ∀ nodes : List Node,
    (∀ x ∈ preorderAll nodes, x.Placed P) → ∀ d ∈ reportsAll c nodes, d.Placed P
  | [], _, d, hd => by cases hd
  | node :: rest, h, d, hd => by
    rw [reportsAll] at hd
    rcases List.mem_append.mp hd with hd | hd
    · exact placed_reports c node (fun x hx => h x (List.mem_append_left _ hx)) d hd
    · exact placed_reportsAll c rest (fun x hx => h x (List.mem_append_right _ hx)) d hd

end

theorem diagnostics_of_compile {c : Config} {nodes : List Node} {compiled : Compiled}
    (h : compile c nodes = .ok compiled) : compiled.diagnostics = reportsAll c nodes := by
  obtain ⟨e, hr, rfl⟩ := run_of_compile h
  exact (adds_emitNodes c nodes Emitter.carries_nil hr).2

/-! ## The forest of a source -/

/-- A tag that holds its attributes, one behind the other, and behind all of them the children of
its element, one behind the other. -/
structure Tag.Encloses (t : Tag) (children : List Node) : Prop where
  attributes_within : ∀ a ∈ t.attributes, a.span.Within t.span
  attributes_ordered : (t.attributes.map (·.span)).Pairwise Span.Before
  children_within : ∀ node ∈ children, node.span.Within t.span
  children_behind : ∀ a ∈ t.attributes, ∀ node ∈ children, a.span.Before node.span
  children_ordered : (children.map Node.span).Pairwise Span.Before

theorem Node.Placed.encloses {P : Nat → Prop} {t : Tag} {children : List Node}
    (h : (Node.element t children).Placed P) : t.Encloses children := by
  obtain ⟨-, hlaid⟩ := h
  -- Attributes and children stand in one row, which is in order within both and across.
  obtain ⟨hattributes, hchildren, hbehind⟩ := List.pairwise_append.mp hlaid.pairwise
  have hwithin : ∀ s ∈ t.attributes.map (·.span) ++ children.map Node.span, s.Within t.span := by
    intro s hs
    obtain ⟨hstart, -, hstop⟩ := hlaid.of_mem hs
    exact ⟨hstart, hstop⟩
  constructor
  · intro a ha
    exact hwithin _ (List.mem_append_left _ (List.mem_map_of_mem ha))
  · exact hattributes
  · intro node hnode
    exact hwithin _ (List.mem_append_right _ (List.mem_map_of_mem hnode))
  · intro a ha node hnode
    exact hbehind _ (List.mem_map_of_mem ha) _ (List.mem_map_of_mem hnode)
  · exact hchildren

/-- A document whose spans form a nested, ordered forest inside a source. -/
structure Document.Nested (source : String) (document : Document) : Prop where
  nodes_inside : ∀ node ∈ preorderAll document.nodes, node.span.Inside source
  attributes_inside : ∀ t children, .element t children ∈ preorderAll document.nodes →
    ∀ a ∈ t.attributes, a.span.Inside source
  encloses : ∀ t children, .element t children ∈ preorderAll document.nodes → t.Encloses children
  ordered : (document.nodes.map Node.span).Pairwise Span.Before
  reports_inside : ∀ d ∈ document.diagnostics, d.Inside source

/-- **Spans form a nested, ordered forest inside the source.** The span of every node and of every
attribute, and of every report with its notes, lies in the source and ends at boundaries of
characters. An element holds its attributes and behind them its children, one behind the other, and
so do the trees of the forest follow each other. What a compiler reports of the forest lies in the
source as well. -/
theorem spans_nested_parse (source : String) :
    (parse source).Nested source ∧
      ∀ c compiled, compile c (parse source).nodes = .ok compiled →
        ∀ d ∈ compiled.diagnostics, d.Inside source := by
  obtain ⟨⟨hlaid, hplaced⟩, hreports⟩ := placed_parse source
  refine ⟨?_, ?_⟩
  · constructor
    · intro node hnode
      exact (hplaced node hnode).sound.inside
    · intro t children ht a ha
      exact ((hplaced _ ht).sound_attribute ha).inside
    · intro t children ht
      exact (hplaced _ ht).encloses
    · exact hlaid.pairwise
    · intro d hd
      exact (hreports d hd).inside
  · intro c compiled hcompile d hd
    rw [diagnostics_of_compile hcompile] at hd
    exact (placed_reportsAll c _ hplaced d hd).inside

/-- Letters of two bytes, a brace without its pair, an element that the end tag around it closes,
an end tag that closes nothing, and a comment that the source cuts off. -/
theorem spans_nested_parse_mended :
    ∃ source compiled, source = "é<p class=\"a\x7d\"><b>ü</p></i><!--" ∧
      compile {} (parse source).nodes = .ok compiled ∧
      (preorderAll (parse source).nodes).map Node.span =
        [⟨0, 2⟩, ⟨2, 25⟩, ⟨16, 21⟩, ⟨19, 21⟩, ⟨29, 33⟩] ∧
      (parse source).diagnostics.map (·.span) = [⟨16, 19⟩, ⟨25, 29⟩, ⟨29, 33⟩] ∧
      (parse source).Nested source ∧
      compiled.diagnostics.map (·.span) = [⟨5, 15⟩] ∧
      ∀ d ∈ compiled.diagnostics, d.Inside source := by
  generalize hr : compile {} (parse "é<p class=\"a\x7d\"><b>ü</p></i><!--").nodes = r
  have hok : r.toOption.isSome := by
    rw [← hr]
    decide +kernel
  cases r with
  | error err => cases hok
  | ok compiled =>
    obtain ⟨hnested, hreports⟩ := spans_nested_parse "é<p class=\"a\x7d\"><b>ü</p></i><!--"
    refine ⟨_, compiled, rfl, hr, ?_, ?_, hnested, ?_, hreports {} compiled hr⟩
    · decide +kernel
    · decide +kernel
    · rw [diagnostics_of_compile hr]
      decide +kernel

end Markup

end Stencil
