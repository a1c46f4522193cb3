import Stencil.Proofs.Markup.Nesting
import Stencil.Proofs.Markup.RoundTrip

/-!
# Nodes and tokens

Some tokens begin a node: text, comments and the like are nodes of their own, and a start tag
begins an element. The nodes of a forest, an element in front of what is in it, are the nodes of
these tokens in their order, however the tags are nested and whatever had to be mended.

An element is added to the forest when it is closed, so that the nodes are not added in this order.
The invariant is on what is built and what is still open taken together: listed from the outermost
open element to the innermost, it only ever grows at its end. Closing an element moves it from one
part of the list to the other and keeps the list as it is.

## Main definitions

* `Landmark`: what of a node is set by its first token, and never mended
* `Node.landmark`, `Token.landmark?`, `Event.landmarks`, `Builder.landmarks`: the landmarks of
  nodes, tokens, events and of all that a builder has
* `Node.BegunBy`: a node that a token begins

## Main results

* `landmarks_eventsOf`: grouping tokens keeps their landmarks
* `Builder.landmarks_step`, `Builder.landmarks_foldl_step`: events add their landmarks at the end
* `nodes_parse_tokens`: **the nodes of a source in pre-order are those that its tokens begin**
-/

namespace Stencil.Markup

open Stencil.Text

/-- What of a node is set by its first token: its kind and its place, of an element only where it
begins. -/
inductive Landmark where
  | element (start : Nat)
  | text (span : Span)
  | comment (span : Span)
  | other (kind : OtherKind) (span : Span)

/-- The landmark of a node. -/
def Node.landmark : Node → Landmark
  | .element t _ => .element t.span.start
  | .text _ span => .text span
  | .comment _ span => .comment span
  | .other kind _ span => .other kind span

/-- The landmark of the node that a token begins, if it begins one. -/
def Token.landmark? (t : Token) : Option Landmark :=
  match t.kind with
  | .startTag => some (.element t.span.start)
  | .text | .rawText => some (.text t.span)
  | .comment => some (.comment t.span)
  | .cdata => some (.other .cdata t.span)
  | .doctype => some (.other .doctype t.span)
  | .instruction => some (.other .instruction t.span)
  | _ => none

/-- The landmarks of what an event adds. -/
def Event.landmarks : Event → List Landmark
  | .text _ span => [.text span]
  | .comment _ span _ => [.comment span]
  | .other kind _ span => [.other kind span]
  | .start s => .element s.tag.span.start :: s.body.toList.map fun t => .text t.span
  | .stop _ => []

/-! ## Tokens and events -/

variable {P : Nat → Prop} {lo hi : Nat}

theorem Token.landmark?_of_isTagPart {t : Token} (h : t.kind.isTagPart = true) :
    t.landmark? = none := by
  unfold landmark?
  cases hkind : t.kind <;> first | rfl | (rw [hkind] at h; cases h)

theorem filterMap_landmark?_tagParts {parts : List Token}
    (h : ∀ x ∈ parts, x.kind.isTagPart = true) : parts.filterMap Token.landmark? = [] := by
  rw [List.filterMap_eq_nil_iff]
  intro x hx
  exact Token.landmark?_of_isTagPart (h x hx)

/-- The tag that covers the tokens behind its name begins where the name does. -/
theorem start_coverAll {t : Token} {parts after : List Token}
    (h : Laid P lo ((t :: (parts ++ after)).map (·.span)) hi) :
    (coverAll t.span parts).start = t.span.start := by
  obtain ⟨-, ht, hrest⟩ := h
  rw [List.map_append] at hrest
  obtain ⟨mid, hparts, -⟩ := laid_append.mp hrest
  obtain ⟨stop, hcover, -, -, -⟩ := laid_coverAll ht hparts
  rw [hcover]

/-- A start tag has the landmarks of the tokens it takes up. -/
theorem landmarks_startTagOf {t : Token} {rest : List Token} (ht : t.kind = .startTag)
    (h : Laid P lo ((t :: rest).map (·.span)) hi) :
    (t :: rest).filterMap Token.landmark? = (Event.start (startTagOf t rest).1).landmarks ++
      (startTagOf t rest).2.filterMap Token.landmark? := by
  obtain ⟨inner, parts, hmade, hrest⟩ := startTagOf_madeOf t rest
  -- From here on only how the tag is made of the tokens matters.
  revert hmade hrest
  generalize startTagOf t rest = r
  obtain ⟨s, after⟩ := r
  intro hmade hrest
  dsimp only at hmade hrest ⊢
  subst hrest
  have hfirst : t.landmark? = some (.element t.span.start) := by
    rw [Token.landmark?, ht]
  have hbody : s.body.toList.filterMap Token.landmark? =
      s.body.toList.map fun t => .text t.span := by
    cases hs : s.body with
    | none => rfl
    | some x =>
      have hx : x.kind = .rawText := (hmade.body x hs).1
      simp [Token.landmark?, hx]
  rw [List.filterMap_cons_some hfirst, List.filterMap_append, List.filterMap_append, hbody,
    filterMap_landmark?_tagParts hmade.isTagPart, Event.landmarks, hmade.span, start_coverAll h]
  rfl

/-- The tokens that an end tag takes up have no landmarks. -/
theorem landmarks_endTagOf {t : Token} {rest : List Token} (ht : t.kind = .endTag) :
    (t :: rest).filterMap Token.landmark? = (endTagOf t rest).2.filterMap Token.landmark? := by
  obtain ⟨parts, hparts, -, hrest⟩ := endTagOf_madeOf t rest
  have hfirst : t.landmark? = none := by
    rw [Token.landmark?, ht]
  rw [List.filterMap_cons_none hfirst]
  conv_lhs => rw [hrest]
  rw [List.filterMap_append, filterMap_landmark?_tagParts hparts, List.nil_append]

theorem landmarks_of_leafOf {t : Token} {e : Event} (he : leafOf t = some e) :
    t.landmark?.toList = e.landmarks := by
  unfold leafOf at he
  unfold Token.landmark?
  split at he <;> cases he <;> simp [*, Event.landmarks]

theorem landmark?_of_leafOf_eq_none {t : Token} (ht : t.kind ≠ .startTag) (he : leafOf t = none) :
    t.landmark? = none := by
  unfold leafOf at he
  unfold Token.landmark?
  cases hkind : t.kind <;> simp_all

/-- **Grouping tokens keeps their landmarks.** -/
theorem landmarks_eventsOf {ts : List Token} (h : Laid P lo (ts.map (·.span)) hi) :
    (eventsOf ts).flatMap Event.landmarks = ts.filterMap Token.landmark? := by
  fun_induction eventsOf ts generalizing lo with
  | case1 => rfl
  | case2 t rest ht ih =>
    obtain ⟨mid, -, hrest⟩ := placed_startTagOf h
    rw [List.flatMap_cons, ih hrest, landmarks_startTagOf ht h]
  | case3 t rest _ ht ih =>
    obtain ⟨mid, -, hrest⟩ := placed_endTagOf h
    rw [List.flatMap_cons, ih hrest, landmarks_endTagOf ht]
    rfl
  | case4 t rest _ _ e he ih =>
    obtain ⟨-, -, hrest⟩ := h
    rw [List.flatMap_cons, ih hrest, ← landmarks_of_leafOf he]
    cases hmark : t.landmark? with
    | none => rw [List.filterMap_cons_none hmark]; rfl
    | some mark => rw [List.filterMap_cons_some hmark]; rfl
  | case5 t rest ht _ he ih =>
    obtain ⟨-, -, hrest⟩ := h
    rw [ih hrest, List.filterMap_cons_none (landmark?_of_leafOf_eq_none ht he)]

/-! ## What a builder has -/

/-- The landmarks of all nodes of a forest. -/
def landmarksAll (nodes : List Node) : List Landmark :=
  (preorderAll nodes).map Node.landmark

theorem landmarksAll_append (nodes nodes' : List Node) :
    landmarksAll (nodes ++ nodes') = landmarksAll nodes ++ landmarksAll nodes' := by
  rw [landmarksAll, preorderAll_append, List.map_append]
  rfl

theorem landmarksAll_element (t : Tag) (children : List Node) :
    landmarksAll [.element t children] = .element t.span.start :: landmarksAll children := by
  rw [landmarksAll, preorderAll_singleton, Node.preorder, List.map_cons]
  rfl

/-- The landmarks of what was built and what is open, outermost first. -/
def framesLandmarks (roots : List Node) : List Frame → List Landmark
  | [] => landmarksAll roots.reverse
  | f :: rest =>
    framesLandmarks roots rest ++ .element f.tag.span.start :: landmarksAll f.children.reverse

/-- The landmarks of all that a builder has. -/
def Builder.landmarks (b : Builder) : List Landmark :=
  framesLandmarks b.roots b.stack

namespace Builder

variable {b : Builder}

theorem landmarks_append (b : Builder) (node : Node) :
    (b.append node).landmarks = b.landmarks ++ landmarksAll [node] := by
  obtain ⟨roots, stack, reports⟩ := b
  cases stack with
  | nil =>
    show landmarksAll (node :: roots).reverse = _
    rw [List.reverse_cons, landmarksAll_append]
    rfl
  | cons f rest =>
    show framesLandmarks roots rest ++
      .element f.tag.span.start :: landmarksAll (node :: f.children).reverse = _
    rw [List.reverse_cons, landmarksAll_append, ← List.cons_append, ← List.append_assoc]
    rfl

/-- **Closing an element keeps all landmarks.** The element and all that is in it are added to the
element around it, which was last before it. -/
theorem landmarks_close {roots : List Node} {f : Frame} {rest : List Frame}
    (reports reports' : List Diagnostic) {t : Tag} (ht : t.span.start = f.tag.span.start) :
    (append ⟨roots, rest, reports⟩ (.element t f.children.reverse)).landmarks =
      landmarks ⟨roots, f :: rest, reports'⟩ := by
  rw [landmarks_append, landmarksAll_element, ht]
  rfl

theorem landmarks_popImplicit (h : b.Placed P hi) (related : List Diagnostic.Note) :
    (b.popImplicit related).landmarks = b.landmarks := by
  obtain ⟨roots, stack, reports⟩ := b
  cases stack with
  | nil => rfl
  | cons f rest =>
    obtain ⟨htag, -, hchildren, -⟩ := h.frames
    obtain ⟨stop, hspan, -, -, -⟩ := span_implicit htag hchildren
    have hstart : (Frame.implicit f).span.start = f.tag.span.start := by rw [hspan]
    exact landmarks_close _ _ hstart

theorem landmarks_popMany (h : b.Placed P hi) {related : List Diagnostic.Note}
    (hrelated : ∀ note ∈ related, note.span.Sound P) (n : Nat) :
    (b.popMany related n).landmarks = b.landmarks := by
  induction n generalizing b with
  | zero => rfl
  | succ n ih => rw [popMany, ih (h.popImplicit hrelated), landmarks_popImplicit h]

theorem landmarks_foldl_report (b : Builder) (strays : List Token) :
    (strays.foldl (fun b t => b.report (.about .malformedAttribute t.span t.text)) b).landmarks =
      b.landmarks := by
  induction strays generalizing b with
  | nil => rfl
  | cons t strays ih => exact ih _

/-- A start tag that opens no element has no body, which would be lost. -/
theorem body_eq_none {s : StartTag} (hs : s.Placed P lo hi)
    (h : s.ending ≠ .bracket ∨ isVoid s.tag.name = true) : s.body = none := by
  rw [← Option.not_isSome_iff_eq_none]
  intro hsome
  obtain ⟨hending, hraw⟩ := hs.body hsome
  rcases h with h | hvoid
  · exact h hending
  · rw [isVoid_of_isRawText hraw] at hvoid
    cases hvoid

theorem landmarks_append_empty (b : Builder) {s : StartTag} (hs : s.body = none) :
    (b.append (.element s.tag [])).landmarks = b.landmarks ++ (Event.start s).landmarks := by
  rw [landmarks_append, landmarksAll_element, Event.landmarks, hs]
  rfl

/-- A start tag adds its element, and its body if it has one. -/
theorem landmarks_start (b : Builder) {s : StartTag} (hs : s.Placed P lo hi) :
    (b.start s).landmarks = b.landmarks ++ (Event.start s).landmarks := by
  have hreported := landmarks_foldl_report b s.strays
  dsimp only [Builder.start]
  split
  · rename_i hmissing
    have hbody := body_eq_none hs (.inl (by rw [hmissing]; decide))
    exact (landmarks_append_empty _ hbody).trans (congrArg (· ++ _) hreported)
  split
  · rename_i hclosed
    have hbody : s.body = none := by
      apply body_eq_none hs
      rcases (Bool.or_eq_true _ _).mp hclosed with hslash | hvoid
      · left
        rw [of_decide_eq_true hslash]
        decide
      · exact .inr hvoid
    exact (landmarks_append_empty _ hbody).trans (congrArg (· ++ _) hreported)
  · refine congrArg₂ (· ++ ·) hreported ?_
    rw [Event.landmarks]
    cases s.body <;> rfl

/-- An end tag adds nothing, whether it closes elements or not. -/
theorem landmarks_stop (h : b.Placed P lo) {t : EndTag} (ht : t.span.Sound P) :
    (b.stop t).landmarks = b.landmarks := by
  obtain ⟨n, popped, hpopped, hstop⟩ := stop_cases b t
  have hkept : popped.landmarks = b.landmarks := by
    rw [hpopped, landmarks_popMany (h.report_if (Diagnostic.placed_of_span ht rfl))
      (List.forall_mem_singleton.mpr ht)]
    split <;> rfl
  rcases hstop with hstop | hstop | ⟨f, rest, hstack, hstop⟩
  · rw [hstop, hkept]
  · rw [hstop]
    exact hkept
  · rw [hstop, ← hkept]
    obtain ⟨roots, stack, reports⟩ := popped
    cases hstack
    exact landmarks_close _ _ rfl

/-- **An event adds its landmarks at the end.** -/
theorem landmarks_step (h : b.Placed P lo) {e : Event} (he : e.Placed P lo hi) :
    (b.step e).landmarks = b.landmarks ++ e.landmarks := by
  cases e with
  | text s span => exact landmarks_append b _
  | comment s span terminated =>
    refine (landmarks_append _ _).trans (congrArg (· ++ _) ?_)
    split <;> rfl
  | other kind s span => exact landmarks_append b _
  | start s => exact landmarks_start b he
  | stop t => exact (landmarks_stop h he.2.1).trans (List.append_nil _).symm

/-- **Events in a row add their landmarks at the end.** -/
theorem landmarks_foldl_step (h : b.Placed P lo) {events : List Event}
    (he : EventsPlaced P lo events hi) :
    (events.foldl Builder.step b).landmarks = b.landmarks ++ events.flatMap Event.landmarks := by
  induction events generalizing b lo with
  | nil => exact (List.append_nil _).symm
  | cons e events ih =>
    obtain ⟨mid, hfirst, hrest⟩ := he
    rw [List.foldl_cons, ih (h.step hfirst) hrest, landmarks_step h hfirst, List.flatMap_cons,
      List.append_assoc]

end Builder

/-- The landmarks of the nodes of a source are those of its tokens. -/
theorem landmarksAll_parse (source : String) :
    landmarksAll (parse source).nodes = (tokenize source).filterMap Token.landmark? := by
  have htokens := laid_tokenize source
  have hevents := eventsPlaced_eventsOf htokens
  have hempty := Builder.placed_empty (IsBoundary source)
  have hfinish := Builder.landmarks_popMany (hempty.foldl_step hevents) (List.forall_mem_nil _)
    ((eventsOf (tokenize source)).foldl Builder.step {}).stack.length
  -- Nothing is open in the end, so that all landmarks are those of the roots.
  have hroots : landmarksAll (parse source).nodes =
      ((eventsOf (tokenize source)).foldl Builder.step {}).finish.landmarks := by
    rw [Builder.landmarks, Builder.stack_finish]
    rfl
  calc landmarksAll (parse source).nodes
      = ((eventsOf (tokenize source)).foldl Builder.step {}).finish.landmarks := hroots
    _ = ((eventsOf (tokenize source)).foldl Builder.step {}).landmarks := hfinish
    _ = (eventsOf (tokenize source)).flatMap Event.landmarks :=
        Builder.landmarks_foldl_step hempty hevents
    _ = (tokenize source).filterMap Token.landmark? := landmarks_eventsOf htokens

/-! ## Nodes and the tokens that begin them -/

/-- The tokens that begin a node. -/
def TokenKind.beginsNode : TokenKind → Bool
  | startTag | text | rawText | comment | cdata | doctype | instruction => true
  | _ => false

/-- A node that a token begins: of the kind of the token, and standing where the token stands. An
element only begins there. -/
def Node.BegunBy (node : Node) (t : Token) : Prop :=
  match node with
  | .element tag _ => t.kind = .startTag ∧ tag.span.start = t.span.start
  | .text _ span => (t.kind = .text ∨ t.kind = .rawText) ∧ span = t.span
  | .comment _ span => t.kind = .comment ∧ span = t.span
  | .other kind _ span => t.kind = kind.tokenKind ∧ span = t.span

theorem Token.isSome_landmark? (t : Token) : t.landmark?.isSome = t.kind.beginsNode := by
  unfold landmark?
  cases t.kind <;> rfl

theorem Node.begunBy_of_landmark {node : Node} {t : Token} (h : t.landmark? = some node.landmark) :
    node.BegunBy t := by
  unfold Token.landmark? at h
  unfold Node.BegunBy
  cases node with
  | other kind s span => cases kind <;> split at h <;> simp_all [Node.landmark, OtherKind.tokenKind]
  | _ => split at h <;> simp_all [Node.landmark]

/-- Nodes that have the landmarks of tokens are begun by those of them that begin a node. -/
theorem forall₂_begunBy {nodes : List Node} {ts : List Token}
    (h : nodes.map Node.landmark = ts.filterMap Token.landmark?) :
    List.Forall₂ Node.BegunBy nodes (ts.filter (·.kind.beginsNode)) := by
  induction ts generalizing nodes with
  | nil =>
    rw [List.map_eq_nil_iff.mp h]
    exact .nil
  | cons t ts ih =>
    have hbegins := t.isSome_landmark?
    -- A token that begins no node is dropped on both sides, any other takes the first node.
    cases hmark : t.landmark? with
    | none =>
      rw [List.filterMap_cons_none hmark] at h
      rw [hmark] at hbegins
      rw [List.filter_cons_of_neg (by rw [← hbegins]; decide)]
      exact ih h
    | some mark =>
      rw [List.filterMap_cons_some hmark] at h
      rw [hmark] at hbegins
      rw [List.filter_cons_of_pos (by rw [← hbegins]; rfl)]
      obtain ⟨node, nodes, rfl, hnode, hrest⟩ := List.map_eq_cons_iff.mp h
      refine .cons (Node.begunBy_of_landmark ?_) (ih hrest)
      rw [hmark, hnode]

/-- **The nodes of a source in pre-order are those that its tokens begin.** They correspond one to
one and in order to the tokens that begin a node, each of the kind of its token. An element starts
where its start tag does, and every other node has the span of its token. -/
theorem nodes_parse_tokens (source : String) :
    List.Forall₂ Node.BegunBy (preorderAll (parse source).nodes)
      ((tokenize source).filter (·.kind.beginsNode)) :=
  forall₂_begunBy (landmarksAll_parse source)

end Stencil.Markup
