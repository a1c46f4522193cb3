import Stencil.Proofs.Markup.Matching

/-!
# What holds of all elements

A property of the tag and the children of an element holds of every element of a forest if it holds
of the elements that start tags make and is kept when children are added. It may not hang on where
an element ends, which is known only when the element is closed. Most properties of interest are not
kept for every tag: an element of some tags has to be closed before anything is added to it. So a
tag is called free if the property holds whatever the children are, and an element whose tag is not
free has to be closed by the event behind its start tag.

The invariant follows from this: of the open elements only the innermost may have a tag that is not
free, and then the next event closes it.

## Main definitions

* `ElementsAll`: a property of all elements of a forest
* `Free`: a tag for which a property holds whatever the children are
* `EndFree`: a property that does not hang on where an element ends
* `Node.glance`: the name of an element and the texts in it
* `StartTag.opens`, `StartTag.content`: whether a start tag opens an element, and with what in it
* `Admits`: what the property asks of events
* `Builder.tags`: the tags of the elements that are open
* `Builder.Built`, `Builder.Awaits`: what is kept for a builder, and for the events to come

## Main results

* `exists_startTagOf`: every start tag comes from a token
* `Builder.Awaits.step`, `Builder.Awaits.foldl_step`: events keep it
* `elementsAll_parse`: **all elements of a source have the property**
-/

namespace Stencil.Markup

open Stencil.Text

/-! ## Elements of a forest -/

/-- A property of the tag and the children of every element of a forest, wherever it stands. -/
def ElementsAll (P : Tag → List Node → Prop) (nodes : List Node) : Prop :=
  ∀ t children, .element t children ∈ preorderAll nodes → P t children

/-- A tag for which a property of elements holds whatever the children are. -/
def Free (P : Tag → List Node → Prop) (t : Tag) : Prop :=
  ∀ children, P t children

/-- A property of elements that is kept when an element is given another end. -/
def EndFree (P : Tag → List Node → Prop) : Prop :=
  ∀ t stop children, P t children → P { t with span := ⟨t.span.start, stop⟩ } children

variable {P : Tag → List Node → Prop}

theorem mem_preorderAll {node : Node} {nodes : List Node} :
    node ∈ preorderAll nodes ↔ ∃ top ∈ nodes, node ∈ top.preorder := by
  induction nodes with
  | nil => simp [preorderAll]
  | cons top nodes ih => simp [preorderAll, ih]

theorem elementsAll_nil : ElementsAll P [] :=
  fun _ _ h => absurd h (List.not_mem_nil)

theorem elementsAll_cons {node : Node} {nodes : List Node} :
    ElementsAll P (node :: nodes) ↔ ElementsAll P [node] ∧ ElementsAll P nodes := by
  simp only [ElementsAll, preorderAll, List.append_nil, List.mem_append, or_imp, forall_and]

theorem elementsAll_reverse {nodes : List Node} :
    ElementsAll P nodes.reverse ↔ ElementsAll P nodes := by
  simp only [ElementsAll, mem_preorderAll, List.mem_reverse]

/-- There is no element in a node that is none and has none in it. -/
theorem elementsAll_leaf {node : Node} (hleaf : node.preorder = [node])
    (hnode : ∀ t children, node ≠ .element t children) : ElementsAll P [node] := by
  intro t children hmem
  rw [preorderAll_singleton, hleaf, List.mem_singleton] at hmem
  exact absurd hmem.symm (hnode t children)

/-- An element has the property, and all elements in it. -/
theorem elementsAll_element {t : Tag} {children : List Node} :
    ElementsAll P [.element t children] ↔ P t children ∧ ElementsAll P children := by
  rw [ElementsAll, preorderAll_singleton, Node.preorder]
  constructor
  · intro h
    exact ⟨h t children (List.mem_cons_self ..),
      fun t' children' hmem => h t' children' (List.mem_cons_of_mem _ hmem)⟩
  · rintro ⟨hself, hchildren⟩ t' children' hmem
    rcases List.mem_cons.mp hmem with heq | hmem
    · cases heq
      exact hself
    · exact hchildren t' children' hmem

/-- The text of a node that is one. -/
def Node.text? : Node → Option String
  | .text s _ => some s
  | _ => none

/-- The name of an element, and of each of its children the text if it is one. -/
def Node.glance : Node → Option (String × List (Option String))
  | .element t children => some (t.name, children.map Node.text?)
  | _ => none

theorem exists_element_of_glance (nodes : List Node) (name : String) (texts : List (Option String))
    (h : (name, texts) ∈ (preorderAll nodes).filterMap Node.glance) :
    ∃ t children, .element t children ∈ preorderAll nodes ∧ t.name = name ∧
      children.map Node.text? = texts := by
  obtain ⟨node, hnode, hglance⟩ := List.mem_filterMap.mp h
  cases node with
  | element t children =>
    obtain ⟨hname, htexts⟩ := Prod.mk.inj (Option.some.inj hglance)
    exact ⟨t, children, hnode, hname, htexts⟩
  | text | comment | other => cases hglance

/-! ## Events -/

/-- **Every start tag comes from a token**, and the events behind it from the tokens that are
left. -/
theorem exists_startTagOf {ts : List Token} {s : StartTag} {rest : List Event}
    (h : .start s :: rest <:+ eventsOf ts) :
    ∃ t after, t :: after <:+ ts ∧ t.kind = .startTag ∧ s = (startTagOf t after).1 ∧
      rest = eventsOf (startTagOf t after).2 := by
  fun_induction eventsOf ts with
  | case1 => cases List.suffix_nil.mp h
  | case2 t tokens ht ih =>
    rcases List.suffix_cons_iff.mp h with heq | hsuffix
    · obtain ⟨hfirst, hrest⟩ := List.cons.inj heq
      exact ⟨t, tokens, List.suffix_rfl, ht, Event.start.inj hfirst, hrest⟩
    · obtain ⟨t', after, hsuffix, hstart⟩ := ih hsuffix
      exact ⟨t', after, hsuffix.trans (startTagOf_suffix t tokens), hstart⟩
  | case3 t tokens _ _ ih =>
    rcases List.suffix_cons_iff.mp h with heq | hsuffix
    · cases (List.cons.inj heq).1
    · obtain ⟨t', after, hsuffix, hstart⟩ := ih hsuffix
      exact ⟨t', after, hsuffix.trans (endTagOf_suffix t tokens), hstart⟩
  | case4 t tokens _ _ e he ih =>
    rcases List.suffix_cons_iff.mp h with heq | hsuffix
    · rw [← (List.cons.inj heq).1] at he
      unfold leafOf at he
      split at he <;> cases he
    · obtain ⟨t', after, hsuffix, hstart⟩ := ih hsuffix
      exact ⟨t', after, hsuffix.trans (List.suffix_cons t tokens), hstart⟩
  | case5 t tokens _ _ _ ih =>
    obtain ⟨t', after, hsuffix, hstart⟩ := ih h
    exact ⟨t', after, hsuffix.trans (List.suffix_cons t tokens), hstart⟩

/-- Whether a start tag opens an element. -/
def StartTag.opens (s : StartTag) : Bool :=
  s.ending = .bracket && !isVoid s.tag.name

/-- What is in an element when its start tag opens it: the body of a raw-text element. -/
def StartTag.content (s : StartTag) : List Node :=
  match s.body with
  | none => []
  | some t => [.text (if isEscapable s.tag.name then Reference.decode t.text else t.text) t.span]

/-- What a property of elements asks of events: that a start tag makes an element with the property,
and that an element of a tag that is not free is closed by the next event. -/
def Admits (P : Tag → List Node → Prop) (events : List Event) : Prop :=
  ∀ s rest, .start s :: rest <:+ events →
    if s.opens then
      P s.tag s.content ∧
        (Free P s.tag ∨ ∀ e ∈ rest.head?, ∃ t, e = .stop t ∧ t.name = s.tag.name)
    else P s.tag []

theorem Admits.suffix {events rest : List Event} (h : Admits P events) (hrest : rest <:+ events) :
    Admits P rest :=
  fun s after hafter => h s after (hafter.trans hrest)

namespace Builder

variable {b : Builder}

/-- A start tag adds an element without children, or it opens one with what is in it. -/
theorem start_cases (b : Builder) (s : StartTag) :
    ∃ reports,
      (s.opens = false ∧ b.start s = append ⟨b.roots, b.stack, reports⟩ (.element s.tag [])) ∨
        (s.opens = true ∧ b.start s = ⟨b.roots, ⟨s.tag, s.content⟩ :: b.stack, reports⟩) := by
  have hstrays : ∀ (strays : List Token) (b : Builder), ∃ reports,
      strays.foldl (fun b t => b.report (.about .malformedAttribute t.span t.text)) b =
        ⟨b.roots, b.stack, reports⟩ := by
    intro strays
    induction strays with
    | nil => exact fun b => ⟨b.reports, rfl⟩
    | cons t strays ih => exact fun b => ih (b.report _)
  obtain ⟨reports, hreported⟩ := hstrays s.strays b
  dsimp only [Builder.start, StartTag.opens]
  rw [hreported]
  by_cases hmissing : s.ending = .missing
  · rw [if_pos hmissing, hmissing]
    exact ⟨_, .inl ⟨rfl, rfl⟩⟩
  rw [if_neg hmissing]
  by_cases hclosed : (s.ending = .slash || isVoid s.tag.name) = true
  · rw [if_pos hclosed]
    refine ⟨_, .inl ⟨?_, rfl⟩⟩
    cases hending : s.ending <;> simp_all
  · rw [if_neg hclosed]
    refine ⟨_, .inr ⟨?_, rfl⟩⟩
    cases hending : s.ending <;> simp_all

/-! ## The tags of open elements -/

/-- The tags of the elements that are open, innermost first. -/
def tags (b : Builder) : List Tag :=
  b.stack.map (·.tag)

theorem tags_append (b : Builder) (node : Node) : (b.append node).tags = b.tags := by
  obtain ⟨roots, stack, reports⟩ := b
  cases stack <;> rfl

theorem tags_popImplicit (b : Builder) (related : List Diagnostic.Note) :
    (b.popImplicit related).tags = b.tags.tail := by
  obtain ⟨roots, stack, reports⟩ := b
  cases stack with
  | nil => rfl
  | cons f rest => exact tags_append _ _

theorem tags_popMany (b : Builder) (related : List Diagnostic.Note) (n : Nat) :
    (b.popMany related n).tags = b.tags.drop n := by
  induction n generalizing b with
  | zero => rfl
  | succ n ih => rw [popMany, ih, tags_popImplicit, List.drop_tail]

/-- An end tag closes the innermost elements, if any. -/
theorem exists_tags_stop (b : Builder) (t : EndTag) : ∃ n, (b.stop t).tags = b.tags.drop n := by
  obtain ⟨n, popped, hpopped, hstop⟩ := stop_cases b t
  have htags : popped.tags = b.tags.drop n := by
    rw [hpopped, tags_popMany]
    split <;> rfl
  rcases hstop with hstop | hstop | ⟨f, rest, hstack, hstop⟩
  · exact ⟨n, by rw [hstop, htags]⟩
  · exact ⟨n, by rw [hstop, ← htags]; rfl⟩
  · refine ⟨n + 1, ?_⟩
    rw [hstop, tags_append, ← List.tail_drop, ← htags, tags, tags, hstack]
    rfl

/-- An end tag of the name of the innermost element closes that one alone. -/
theorem tags_stop_of_head {b : Builder} {t : EndTag} {head : Tag} {tail : List Tag}
    (htags : b.tags = head :: tail) (hname : t.name = head.name) : (b.stop t).tags = tail := by
  obtain ⟨roots, stack, reports⟩ := b
  obtain ⟨f, rest, rfl, rfl, rfl⟩ := List.map_eq_cons_iff.mp htags
  have hfind : (f :: rest).findIdx? (·.tag.name = t.name) = some 0 := by
    rw [List.findIdx?_cons, if_pos (by simpa using hname.symm)]
  have hreported : ∃ reports', (if t.terminated then ⟨roots, f :: rest, reports⟩
      else report ⟨roots, f :: rest, reports⟩ { kind := .unterminatedTag, span := t.span }) =
        (⟨roots, f :: rest, reports'⟩ : Builder) := by
    split <;> exact ⟨_, rfl⟩
  obtain ⟨reports', hreported⟩ := hreported
  dsimp only [Builder.stop]
  rw [hreported]
  dsimp only
  rw [hfind]
  exact tags_append _ _

/-! ## What is kept -/

variable {Q : Nat → Prop} {lo hi : Nat}

/-- All elements that a builder has have the property, and those that are open have it if they are
closed now. -/
structure Built (P : Tag → List Node → Prop) (b : Builder) : Prop where
  roots : ElementsAll P b.roots
  frames : ∀ f ∈ b.stack, P f.tag f.children.reverse ∧ ElementsAll P f.children

theorem Built.report (h : b.Built P) (d : Diagnostic) : (b.report d).Built P :=
  ⟨h.roots, h.frames⟩

/-- A node is added to the innermost open element, whose tag is free. -/
theorem Built.append (h : b.Built P) {node : Node} (hnode : ElementsAll P [node])
    (hfree : ∀ t ∈ b.tags.head?, Free P t) : (b.append node).Built P := by
  obtain ⟨roots, stack, reports⟩ := b
  cases stack with
  | nil => exact ⟨elementsAll_cons.mpr ⟨hnode, h.roots⟩, List.forall_mem_nil _⟩
  | cons f rest =>
    obtain ⟨⟨-, hchildren⟩, hrest⟩ := List.forall_mem_cons.mp h.frames
    refine ⟨h.roots, List.forall_mem_cons.mpr ⟨⟨hfree _ rfl _, ?_⟩, hrest⟩⟩
    exact elementsAll_cons.mpr ⟨hnode, hchildren⟩

/-- What is around the innermost open element, and the element if it is closed at some offset. -/
theorem Built.close {roots : List Node} {f : Frame} {rest : List Frame}
    {reports : List Diagnostic} (h : Built P ⟨roots, f :: rest, reports⟩) (hP : EndFree P)
    (stop : Nat) :
    Built P ⟨roots, rest, reports⟩ ∧ ElementsAll P
      [.element { f.tag with span := ⟨f.tag.span.start, stop⟩ } f.children.reverse] := by
  obtain ⟨⟨hclosed, hchildren⟩, hrest⟩ := List.forall_mem_cons.mp h.frames
  exact ⟨⟨h.roots, hrest⟩,
    elementsAll_element.mpr ⟨hP _ _ _ hclosed, elementsAll_reverse.mpr hchildren⟩⟩

/-- The innermost element is closed, and added to one whose tag is free. -/
theorem Built.popImplicit (h : b.Built P) (hP : EndFree P) (hplaced : b.Placed Q hi)
    (hfree : ∀ t ∈ b.tags.tail, Free P t) (related : List Diagnostic.Note) :
    (b.popImplicit related).Built P := by
  obtain ⟨roots, stack, reports⟩ := b
  cases stack with
  | nil => exact h
  | cons f rest =>
    -- The element begins where its start tag does, since its children stand behind that tag.
    obtain ⟨htag, -, hchildren, -⟩ := hplaced.frames
    obtain ⟨stop, hspan, -⟩ := span_implicit htag hchildren
    obtain ⟨houter, hclosed⟩ := h.close hP stop
    refine (houter.report _).append ?_ fun t ht => hfree t (List.mem_of_mem_head? ht)
    rwa [implicit_eq hspan]

theorem Built.popMany (h : b.Built P) (hP : EndFree P) (hplaced : b.Placed Q hi)
    (hfree : ∀ t ∈ b.tags.tail, Free P t) {related : List Diagnostic.Note}
    (hrelated : ∀ note ∈ related, note.span.Sound Q) (n : Nat) :
    (b.popMany related n).Built P := by
  induction n generalizing b with
  | zero => exact h
  | succ n ih =>
    apply ih (h.popImplicit hP hplaced hfree related) (hplaced.popImplicit hrelated)
    intro t ht
    rw [tags_popImplicit] at ht
    exact hfree t (List.mem_of_mem_tail ht)

/-- An end tag closes elements, each of which is added to one whose tag is free. -/
theorem Built.stop (h : b.Built P) (hP : EndFree P) (hplaced : b.Placed Q lo)
    (hfree : ∀ t ∈ b.tags.tail, Free P t) {t : EndTag} (ht : t.span.Sound Q) :
    (b.stop t).Built P := by
  obtain ⟨n, popped, hpopped, hstop⟩ := stop_cases b t
  have htags : popped.tags = b.tags.drop n := by
    rw [hpopped, tags_popMany]
    split <;> rfl
  have hbuilt : popped.Built P := by
    rw [hpopped]
    refine Built.popMany ?_ hP (hplaced.report_if (Diagnostic.placed_of_span ht rfl)) ?_
      (List.forall_mem_singleton.mpr ht) n
    · split
      · exact h
      · exact h.report _
    · split <;> exact hfree
  rcases hstop with hstop | hstop | ⟨f, rest, hstack, hstop⟩
  · rw [hstop]
    exact hbuilt
  · rw [hstop]
    exact hbuilt.report _
  · rw [hstop]
    obtain ⟨roots, stack, reports⟩ := popped
    cases hstack
    obtain ⟨houter, hclosed⟩ := hbuilt.close hP t.span.stop
    refine houter.append hclosed ?_
    intro tag htag
    have hrest : rest.map (·.tag) = b.tags.tail.drop n := by
      rw [List.drop_tail, ← List.tail_drop, ← htags]
      rfl
    apply hfree
    apply List.mem_of_mem_drop (i := n)
    rw [← hrest]
    exact List.mem_of_mem_head? htag

/-- What is kept for a builder and the events to come: of the open elements only the innermost may
have a tag that is not free, and then the next event closes it. -/
structure Awaits (P : Tag → List Node → Prop) (b : Builder) (events : List Event) : Prop where
  built : b.Built P
  outer : ∀ t ∈ b.tags.tail, Free P t
  inner : ∀ t ∈ b.tags.head?,
    Free P t ∨ ∀ e ∈ events.head?, ∃ close, e = .stop close ∧ close.name = t.name

theorem awaits_of_free (h : b.Built P) (hfree : ∀ t ∈ b.tags, Free P t) (events : List Event) :
    b.Awaits P events where
  built := h
  outer := fun t ht => hfree t (List.mem_of_mem_tail ht)
  inner := fun t ht => .inl (hfree t (List.mem_of_mem_head? ht))

variable {e : Event} {events : List Event}

/-- All tags are free if the next event closes nothing. -/
theorem Awaits.free (h : b.Awaits P (e :: events)) (he : ∀ close, e ≠ .stop close) :
    ∀ t ∈ b.tags, Free P t := by
  have hinner := h.inner
  have houter := h.outer
  cases htags : b.tags with
  | nil => exact List.forall_mem_nil _
  | cons head tail =>
    rw [htags] at hinner houter
    refine List.forall_mem_cons.mpr ⟨?_, houter⟩
    rcases hinner head rfl with hfree | hcloses
    · exact hfree
    · obtain ⟨close, rfl, -⟩ := hcloses e rfl
      exact absurd rfl (he close)

/-- All tags are free behind an end tag: it closes the innermost element if its tag is not. -/
theorem Awaits.free_stop {close : EndTag} (h : b.Awaits P (.stop close :: events)) :
    ∀ t ∈ (b.stop close).tags, Free P t := by
  have hinner := h.inner
  have houter := h.outer
  cases htags : b.tags with
  | nil =>
    obtain ⟨n, hstop⟩ := exists_tags_stop b close
    rw [hstop, htags, List.drop_nil]
    exact List.forall_mem_nil _
  | cons head tail =>
    rw [htags] at hinner houter
    rcases hinner head rfl with hfree | hcloses
    · obtain ⟨n, hstop⟩ := exists_tags_stop b close
      intro t ht
      rw [hstop, htags] at ht
      exact List.forall_mem_cons.mpr ⟨hfree, houter⟩ t (List.mem_of_mem_drop ht)
    · obtain ⟨_, heq, hname⟩ := hcloses (.stop close) rfl
      cases heq
      rw [tags_stop_of_head htags hname]
      exact houter

theorem elementsAll_content (s : StartTag) : ElementsAll P s.content := by
  unfold StartTag.content
  split
  · exact elementsAll_nil
  · exact elementsAll_leaf rfl (by simp)

/-- An event that closes nothing adds its node where all tags are free. -/
theorem Awaits.append (h : b.Awaits P (e :: events)) (he : ∀ close, e ≠ .stop close) {node : Node}
    (hnode : ElementsAll P [node]) : (b.append node).Awaits P events := by
  have hfree := h.free he
  apply awaits_of_free
  · exact h.built.append hnode fun t ht => hfree t (List.mem_of_mem_head? ht)
  · rwa [tags_append]

/-- **An event keeps what is kept.** -/
theorem Awaits.step (h : b.Awaits P (e :: events)) (hP : EndFree P) (hplaced : b.Placed Q lo)
    (he : e.Placed Q lo hi) (hadmits : Admits P (e :: events)) : (b.step e).Awaits P events := by
  cases e with
  | text s span => exact h.append (by simp) (elementsAll_leaf rfl (by simp))
  | comment s span terminated =>
    have hreported : Awaits P (if terminated then b
        else b.report { kind := .unterminatedComment, span }) (.comment s span terminated :: events)
        := by
      split
      · exact h
      · exact ⟨h.built.report _, h.outer, h.inner⟩
    exact hreported.append (by simp) (elementsAll_leaf rfl (by simp))
  | other kind s span => exact h.append (by simp) (elementsAll_leaf rfl (by simp))
  | start s =>
    have hstart := hadmits s events List.suffix_rfl
    obtain ⟨reports, ⟨hopens, heq⟩ | ⟨hopens, heq⟩⟩ := start_cases b s
    · rw [hopens] at hstart
      have hreported : Awaits P ⟨b.roots, b.stack, reports⟩ (.start s :: events) :=
        ⟨⟨h.built.roots, h.built.frames⟩, h.outer, h.inner⟩
      rw [Builder.step, heq]
      exact hreported.append (by simp) (elementsAll_element.mpr ⟨hstart, elementsAll_nil⟩)
    · rw [hopens] at hstart
      obtain ⟨hcontent, hnext⟩ := hstart
      rw [Builder.step, heq]
      -- There is one node at most in an element that was just opened.
      have hreverse : s.content.reverse = s.content := by
        unfold StartTag.content
        split <;> rfl
      refine ⟨⟨h.built.roots, ?_⟩, h.free (by simp), ?_⟩
      · refine List.forall_mem_cons.mpr ⟨⟨?_, elementsAll_content s⟩, h.built.frames⟩
        rwa [hreverse]
      · rintro t ⟨⟩
        exact hnext
  | stop t =>
    exact awaits_of_free (h.built.stop hP hplaced h.outer he.2.1) h.free_stop events

/-- **Events in a row keep what is kept.** -/
theorem Awaits.foldl_step (h : b.Awaits P events) (hP : EndFree P) (hplaced : b.Placed Q lo)
    (he : EventsPlaced Q lo events hi) (hadmits : Admits P events) :
    (events.foldl Builder.step b).Awaits P [] := by
  induction events generalizing b lo with
  | nil => exact h
  | cons e events ih =>
    obtain ⟨mid, hfirst, hrest⟩ := he
    exact ih (h.step hP hplaced hfirst hadmits) (hplaced.step hfirst) hrest
      (hadmits.suffix (List.suffix_cons e events))

end Builder

/-- **All elements of a source have a property that its events admit.** -/
theorem elementsAll_parse {source : String} (hP : EndFree P)
    (h : Admits P (eventsOf (tokenize source))) : ElementsAll P (parse source).nodes := by
  have hevents := eventsPlaced_eventsOf (laid_tokenize source)
  have hplaced := Builder.placed_empty (IsBoundary source)
  have hempty : Builder.Awaits P {} (eventsOf (tokenize source)) :=
    Builder.awaits_of_free ⟨elementsAll_nil, List.forall_mem_nil _⟩ (List.forall_mem_nil _) _
  have hbuilder := hempty.foldl_step hP hplaced hevents h
  refine elementsAll_reverse.mpr (hbuilder.built.popMany hP (hplaced.foldl_step hevents)
    hbuilder.outer (List.forall_mem_nil _) _).roots

end Stencil.Markup
