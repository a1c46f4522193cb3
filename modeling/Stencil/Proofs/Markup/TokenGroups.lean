import Stencil.Proofs.Markup.RawText

/-!
# The groups of tokens

The tokens of a source come in groups. A text, a comment and each of the other constructs between
tags is a group of its own. A tag is a group of its first token, its inner tokens and the token
that ends it, and only the last tag of a source may go without that. Where a bracket ends the start
tag of a raw-text element the body stands behind it, if it is not empty, and behind the body there
is an end tag or nothing.

The reader of tokens does not know where a group ends. It takes up a token and as many of those
behind it as that token asks for, and goes on with the rest. A start tag and an end tag stop at
different tokens, since an end tag passes over a slash and bracket. But on the tokens of a source
both stop where their group ends, so that each round takes up one group and makes one event of it,
and no round begins with a part of a tag or with a body.

## Main definitions

* `Group`, `ungroup`: a token with those that are taken along with it, and the tokens of groups
* `takeUp`, `groupsOf`: a round of the reader, and the groups that its rounds take up
* `Grouped`: groups in the order in which they stand in a source
* `InGroups`: tokens that come in such groups

## Main results

* `eventsOf_cons`: a round of the reader
* `startTagOf_closed`, `startTagOf_body`, `endTagOf_closed`: where a tag ends for the reader
* `Grouped.takeUp_group`: a round takes up one group, whatever stands behind it
* `Grouped.groupsOf_ungroup`, `Grouped.map_event?`: so do all rounds, and each makes one event
* `inGroups_scan`: **the tokens of a source come in groups**
* `tokens_grouped`: **each round of the reader takes up one group of a source**
-/

namespace Stencil.Markup

open Stencil.Text

/-! ## Groups -/

/-- The kinds of tokens that are groups of their own. -/
def TokenKind.isLeaf : TokenKind → Bool
  | text | comment | cdata | doctype | instruction => true
  | _ => false

/-- A token, and those behind it that are taken along with it. -/
structure Group where
  first : Token
  taken : List Token
  deriving DecidableEq, Repr

/-- The tokens of a group. -/
def Group.tokens (g : Group) : List Token :=
  g.first :: g.taken

/-- The tokens of groups in a row. -/
def ungroup (groups : List Group) : List Token :=
  groups.flatMap Group.tokens

theorem ungroup_cons (g : Group) (groups : List Group) :
    ungroup (g :: groups) = g.first :: (g.taken ++ ungroup groups) :=
  rfl

/-- The first token of groups is that of the first group. -/
theorem first_mem_head? {groups : List Group} :
    ∀ g ∈ groups.head?, g.first ∈ (ungroup groups).head? := by
  cases groups <;> rintro g ⟨⟩
  rfl

/-- Groups in the order in which they stand in a source. -/
inductive Grouped : List Group → Prop
  | done : Grouped []
  | leaf {t : Token} {rest : List Group} (ht : t.kind.isLeaf = true) (hrest : Grouped rest) :
      Grouped (⟨t, []⟩ :: rest)
  | tag {t close : Token} {inner : List Token} {rest : List Group} (ht : t.kind.opensTag = true)
      (hinner : ∀ x ∈ inner, x.kind.isInner = true) (hclose : close.kind.closesTag = true)
      (hrest : Grouped rest) : Grouped (⟨t, inner ++ [close]⟩ :: rest)
  /-- A raw-text element with its body. Behind the body there is an end tag or nothing. -/
  | body {t close body : Token} {inner : List Token} {rest : List Group} (ht : t.kind = .startTag)
      (hname : isRawText (t.tagName 1) = true) (hinner : ∀ x ∈ inner, x.kind.isInner = true)
      (hclose : close.kind = .tagEnd) (hbody : body.kind = .rawText)
      (hnext : ∀ g ∈ rest.head?, g.first.kind = .endTag) (hrest : Grouped rest) :
      Grouped (⟨t, inner ++ [close, body]⟩ :: rest)
  /-- A tag in which the source ends. -/
  | cut {t : Token} {inner : List Token} (ht : t.kind.opensTag = true)
      (hinner : ∀ x ∈ inner, x.kind.isInner = true) : Grouped [⟨t, inner⟩]

/-! ## Rounds of the reader -/

/-- A round of the reader, which begins with the token `t`: the event that is made of it, if there
is one, and the tokens that are left for the next round. -/
def takeUp (t : Token) (rest : List Token) : Option Event × List Token :=
  if t.kind = .startTag then (some (.start (startTagOf t rest).1), (startTagOf t rest).2)
  else if t.kind = .endTag then (some (.stop (endTagOf t rest).1), (endTagOf t rest).2)
  else (leafOf t, rest)

theorem takeUp_length (t : Token) (rest : List Token) :
    (takeUp t rest).2.length ≤ rest.length := by
  unfold takeUp
  split
  · exact startTagOf_length t rest
  split
  · exact endTagOf_length t rest
  · exact le_rfl

/-- The groups that the rounds of the reader take up. -/
def groupsOf : List Token → List Group
  | [] => []
  | t :: rest =>
    ⟨t, rest.take (rest.length - (takeUp t rest).2.length)⟩ :: groupsOf (takeUp t rest).2
termination_by tokens => tokens.length
decreasing_by exact Nat.lt_succ_of_le (takeUp_length t rest)

/-- The event that is made of the tokens of a group. -/
def Group.event? (g : Group) : Option Event :=
  (takeUp g.first g.taken).1

/-- **A round of the reader**: one event at most, and then those of the tokens that are left. -/
theorem eventsOf_cons (t : Token) (rest : List Token) :
    eventsOf (t :: rest) = (takeUp t rest).1.toList ++ eventsOf (takeUp t rest).2 := by
  rw [eventsOf, takeUp]
  split
  · rfl
  split
  · rfl
  · cases leafOf t <;> rfl

/-- A round that leaves exactly the tokens behind a group takes up that group. -/
theorem groupsOf_append {g : Group} {rest : List Token}
    (h : (takeUp g.first (g.taken ++ rest)).2 = rest) :
    groupsOf (g.first :: (g.taken ++ rest)) = g :: groupsOf rest := by
  rw [groupsOf, h, List.length_append, Nat.add_sub_cancel, List.take_left]

/-! ## Where a tag ends for the reader -/

section Fronts

variable {α : Type} {p : α → Bool} {front rest : List α}

/-- What is dropped of a front and a rest that begins with another element is the front. -/
theorem dropWhile_append_of_head? (hfront : ∀ x ∈ front, p x = true)
    (hrest : ∀ x ∈ rest.head?, p x = false) : (front ++ rest).dropWhile p = rest := by
  rw [List.dropWhile_append_of_pos hfront]
  cases rest with
  | nil => rfl
  | cons x rest => rw [List.dropWhile_cons_of_neg (by simp [hrest x rfl])]

theorem takeWhile_append_of_head? (hfront : ∀ x ∈ front, p x = true)
    (hrest : ∀ x ∈ rest.head?, p x = false) : (front ++ rest).takeWhile p = front := by
  rw [List.takeWhile_append_of_pos hfront]
  cases rest with
  | nil => exact List.append_nil front
  | cons x rest => rw [List.takeWhile_cons_of_neg (by simp [hrest x rfl]), List.append_nil]

end Fronts

section Tags

variable {t close : Token} {inner rest : List Token}

/-- A start tag, by its inner tokens and what follows them. -/
theorem startTagOf_inner (t : Token) (hinner : ∀ x ∈ inner, x.kind.isInner = true)
    (hrest : ∀ x ∈ rest.head?, x.kind.isInner = false) :
    startTagOf t (inner ++ rest) =
      ({ tag :=
          { name := t.tagName 1
            attributes := firstOfEachName (attributesOf (itemsOf inner))
            span := coverAll t.span (inner ++ (endingOf rest).2.1) }
         strays := straysOf (itemsOf inner)
         ending := (endingOf rest).1
         body := (bodyOf (t.tagName 1) (endingOf rest).1 (endingOf rest).2.2).1 },
        (bodyOf (t.tagName 1) (endingOf rest).1 (endingOf rest).2.2).2) := by
  rw [startTagOf, dropWhile_append_of_head? hinner hrest, takeWhile_append_of_head? hinner hrest]
  rfl

theorem endingOf_closed (hclose : close.kind.closesTag = true) (rest : List Token) :
    endingOf (close :: rest) = ((endingOf [close]).1, [close], rest) := by
  rcases TokenKind.closesTag_iff.mp hclose with h | h <;> simp [endingOf, h]

theorem bodyOf_of_ne {ts : List Token} (h : ∀ x ∈ ts.head?, x.kind ≠ .rawText) (name : String)
    (ending : Ending) : bodyOf name ending ts = (none, ts) := by
  cases ts with
  | nil => rfl
  | cons x ts => rw [bodyOf, if_neg (by simp [h x rfl])]

theorem isInner_head?_closed (hclose : close.kind.closesTag = true) (rest : List Token) :
    ∀ x ∈ (close :: rest).head?, x.kind.isInner = false := by
  rintro x ⟨⟩
  exact TokenKind.isInner_of_closesTag hclose

/-- **A start tag ends at the token that ends it** if no body follows. -/
theorem startTagOf_closed (t : Token) (hinner : ∀ x ∈ inner, x.kind.isInner = true)
    (hclose : close.kind.closesTag = true) (hrest : ∀ x ∈ rest.head?, x.kind ≠ .rawText) :
    startTagOf t (inner ++ close :: rest) = ((startTagOf t (inner ++ [close])).1, rest) := by
  rw [startTagOf_inner t hinner (isInner_head?_closed hclose rest),
    startTagOf_inner t hinner (isInner_head?_closed hclose []), endingOf_closed hclose rest,
    endingOf_closed hclose [], bodyOf_of_ne hrest, bodyOf]

/-- **The start tag of a raw-text element ends behind the body.** -/
theorem startTagOf_body {body : Token} (hname : isRawText (t.tagName 1) = true)
    (hinner : ∀ x ∈ inner, x.kind.isInner = true) (hclose : close.kind = .tagEnd)
    (hbody : body.kind = .rawText) (rest : List Token) :
    startTagOf t (inner ++ close :: body :: rest) =
      ((startTagOf t (inner ++ [close, body])).1, rest) := by
  have hcloses : close.kind.closesTag = true := by rw [hclose]; rfl
  have hending : ∀ after, endingOf (close :: after) = (.bracket, [close], after) :=
    fun after => if_pos hclose
  have htaken : ∀ after, bodyOf (t.tagName 1) .bracket (body :: after) = (some body, after) := by
    intro after
    rw [bodyOf, if_pos (by simp [hname, hbody])]
  rw [startTagOf_inner t hinner (isInner_head?_closed hcloses _),
    startTagOf_inner t hinner (isInner_head?_closed hcloses _), hending, hending, htaken, htaken]

theorem isSkipped_inner (hinner : ∀ x ∈ inner, x.kind.isInner = true) :
    ∀ x ∈ inner, x.kind.isSkipped = true :=
  fun x hx => TokenKind.isSkipped_of_isInner (hinner x hx)

/-- An end tag that passes over some tokens, by what follows them. -/
def endTagBehind (t : Token) (skipped : List Token) : List Token → EndTag × List Token
  | [] => (⟨t.tagName 2, coverAll t.span skipped, false⟩, [])
  | x :: rest =>
    if x.kind = .tagEnd then (⟨t.tagName 2, (coverAll t.span skipped).cover x.span, true⟩, rest)
    else (⟨t.tagName 2, coverAll t.span skipped, false⟩, x :: rest)

theorem endTagOf_skipped (t : Token) {skipped : List Token}
    (hskipped : ∀ x ∈ skipped, x.kind.isSkipped = true)
    (hrest : ∀ x ∈ rest.head?, x.kind.isSkipped = false) :
    endTagOf t (skipped ++ rest) = endTagBehind t skipped rest := by
  rw [endTagOf, dropWhile_append_of_head? hskipped hrest, takeWhile_append_of_head? hskipped hrest]
  cases rest <;> rfl

/-- **An end tag ends at the token that ends it**, be it a slash and a bracket: what follows them is
no part of a tag. -/
theorem endTagOf_closed (t : Token) (hinner : ∀ x ∈ inner, x.kind.isInner = true)
    (hclose : close.kind.closesTag = true) (hrest : ∀ x ∈ rest.head?, x.kind.isTagPart = false) :
    endTagOf t (inner ++ close :: rest) = ((endTagOf t (inner ++ [close])).1, rest) := by
  have hskip := isSkipped_inner hinner
  rcases TokenKind.closesTag_iff.mp hclose with h | h
  · have hstop : ∀ after, ∀ x ∈ (close :: after).head?, x.kind.isSkipped = false := by
      rintro after x ⟨⟩
      rw [h]
      decide
    rw [endTagOf_skipped t hskip (hstop rest), endTagOf_skipped t hskip (hstop [])]
    rw [endTagBehind, endTagBehind, if_pos h, if_pos h]
  · have hpass : ∀ x ∈ inner ++ [close], x.kind.isSkipped = true := by
      intro x hx
      rcases List.mem_append.mp hx with hx | hx
      · exact hskip x hx
      · rw [List.mem_singleton.mp hx, h]
        rfl
    have hstop : ∀ x ∈ rest.head?, x.kind.isSkipped = false ∧ x.kind ≠ .tagEnd := by
      intro x hx
      have hpart := hrest x hx
      rw [TokenKind.isTagPart, Bool.or_eq_false_iff, decide_eq_false_iff_not] at hpart
      exact hpart
    have hbehind := endTagOf_skipped t hpass fun x hx => (hstop x hx).1
    have hlast : endTagOf t (inner ++ [close] ++ []) = endTagBehind t (inner ++ [close]) [] :=
      endTagOf_skipped t hpass (by intro x hx; cases hx)
    rw [List.append_assoc] at hbehind
    rw [List.append_nil] at hlast
    rw [hlast]
    refine hbehind.trans ?_
    cases rest with
    | nil => rfl
    | cons x rest => exact if_neg (hstop x rfl).2

theorem takeUp_closed (ht : t.kind.opensTag = true) (hinner : ∀ x ∈ inner, x.kind.isInner = true)
    (hclose : close.kind.closesTag = true)
    (hrest : ∀ x ∈ rest.head?, x.kind.isTagPart = false ∧ x.kind ≠ .rawText) :
    takeUp t (inner ++ close :: rest) = ((takeUp t (inner ++ [close])).1, rest) := by
  unfold takeUp
  rcases TokenKind.opensTag_iff.mp ht with h | h
  · rw [if_pos h, if_pos h, startTagOf_closed t hinner hclose fun x hx => (hrest x hx).2]
  · have hne : t.kind ≠ .startTag := by rw [h]; decide
    rw [if_neg hne, if_neg hne, if_pos h, if_pos h,
      endTagOf_closed t hinner hclose fun x hx => (hrest x hx).1]

/-- A tag in which the source ends takes up all that is left. -/
theorem takeUp_cut (ht : t.kind.opensTag = true) (hinner : ∀ x ∈ inner, x.kind.isInner = true) :
    (takeUp t inner).2 = [] := by
  unfold takeUp
  rcases TokenKind.opensTag_iff.mp ht with h | h
  · rw [if_pos h, ← List.append_nil inner, startTagOf_inner t hinner (by intro x hx; cases hx)]
    rfl
  · have hdrop : inner.dropWhile (fun x => x.kind.isSkipped) = [] :=
      List.dropWhile_eq_nil_iff.mpr (isSkipped_inner hinner)
    rw [if_neg (by rw [h]; decide), if_pos h, endTagOf, hdrop]

end Tags

/-! ## The reader takes up one group in each round -/

namespace Grouped

variable {groups : List Group}

/-- A group begins with no part of a tag and with no body. -/
theorem head?_ungroup (h : Grouped groups) :
    ∀ t ∈ (ungroup groups).head?, t.kind.isTagPart = false ∧ t.kind ≠ .rawText := by
  have hopens : ∀ {kind : TokenKind}, kind.opensTag = true →
      kind.isTagPart = false ∧ kind ≠ .rawText := by
    intro kind
    cases kind <;> decide
  cases h with
  | done => rintro t ⟨⟩
  | @leaf t _ ht =>
    rintro _ ⟨⟩
    revert ht
    cases t.kind <;> decide
  | tag ht | cut ht =>
    rintro t ⟨⟩
    exact hopens ht
  | body ht =>
    rintro t ⟨⟩
    rw [ht]
    decide

variable {g : Group} {rest : List Group}

theorem tail (h : Grouped (g :: rest)) : Grouped rest := by
  cases h with
  | leaf _ hrest => exact hrest
  | tag _ _ _ hrest => exact hrest
  | body _ _ _ _ _ _ hrest => exact hrest
  | cut => exact .done

/-- A group begins with a leaf or with a tag, and all else in it are parts of the tag. -/
theorem of_mem (h : Grouped groups) (hg : g ∈ groups) :
    (g.first.kind.isLeaf = true ∧ g.taken = [] ∨ g.first.kind.opensTag = true) ∧
      ∀ t ∈ g.taken, t.kind.isTagPart = true ∨ t.kind = .rawText := by
  have hpart : ∀ {inner : List Token}, (∀ x ∈ inner, x.kind.isInner = true) →
      ∀ x ∈ inner, x.kind.isTagPart = true ∨ x.kind = .rawText :=
    fun hinner x hx =>
      .inl (TokenKind.isTagPart_of_isSkipped (TokenKind.isSkipped_of_isInner (hinner x hx)))
  have hclosing : ∀ {close : Token}, close.kind.closesTag = true →
      close.kind.isTagPart = true ∨ close.kind = .rawText :=
    fun hclose => .inl (TokenKind.isTagPart_of_closesTag hclose)
  induction h with
  | done => cases hg
  | leaf ht _ ih =>
    rcases List.mem_cons.mp hg with rfl | hg
    · exact ⟨.inl ⟨ht, rfl⟩, List.forall_mem_nil _⟩
    · exact ih hg
  | tag ht hinner hclose _ ih =>
    rcases List.mem_cons.mp hg with rfl | hg
    · refine ⟨.inr ht, List.forall_mem_append.mpr ⟨hpart hinner, ?_⟩⟩
      exact List.forall_mem_singleton.mpr (hclosing hclose)
    · exact ih hg
  | body ht _ hinner hclose hbody _ _ ih =>
    rcases List.mem_cons.mp hg with rfl | hg
    · refine ⟨.inr (by rw [ht]; rfl), List.forall_mem_append.mpr ⟨hpart hinner, ?_⟩⟩
      refine List.forall_mem_cons.mpr ⟨hclosing (by rw [hclose]; rfl), ?_⟩
      exact List.forall_mem_singleton.mpr (.inr hbody)
    · exact ih hg
  | cut ht hinner =>
    rw [List.mem_singleton.mp hg]
    exact ⟨.inr ht, hpart hinner⟩

/-- **A round takes up one group**, whatever stands behind it. -/
theorem takeUp_group (h : Grouped (g :: rest)) :
    takeUp g.first (g.taken ++ ungroup rest) = (g.event?, ungroup rest) := by
  cases h with
  | @leaf t _ ht =>
    have hopens : ¬ t.kind = .startTag ∧ ¬ t.kind = .endTag := by
      constructor <;> (intro h; rw [h] at ht; cases ht)
    rw [Group.event?, takeUp, takeUp, if_neg hopens.1, if_neg hopens.2, if_neg hopens.1,
      if_neg hopens.2]
    rfl
  | tag ht hinner hclose hrest =>
    rw [List.append_assoc]
    exact takeUp_closed ht hinner hclose hrest.head?_ungroup
  | body ht hname hinner hclose hbody =>
    rw [Group.event?, takeUp, takeUp, if_pos ht, if_pos ht, List.append_assoc]
    exact congrArg (fun s => (some (Event.start s.1), s.2))
      (startTagOf_body hname hinner hclose hbody _)
  | cut ht hinner =>
    show takeUp _ (_ ++ []) = _
    rw [List.append_nil]
    exact Prod.ext rfl (takeUp_cut ht hinner)

/-- An event is made of each group. -/
theorem isSome_event? (h : Grouped (g :: rest)) : g.event?.isSome = true := by
  have hopens : ∀ {t : Token} {taken : List Token}, t.kind.opensTag = true →
      (takeUp t taken).1.isSome = true := by
    intro t taken ht
    unfold takeUp
    rcases TokenKind.opensTag_iff.mp ht with h | h
    · rw [if_pos h]
      rfl
    · rw [if_neg (by rw [h]; decide), if_pos h]
      rfl
  cases h with
  | @leaf t _ ht =>
    rw [Group.event?, takeUp, leafOf]
    revert ht
    cases t.kind <;> simp [TokenKind.isLeaf]
  | tag ht | cut ht => exact hopens ht
  | body ht => exact hopens (by rw [ht]; rfl)

/-- **The rounds of the reader take up one group each.** -/
theorem groupsOf_ungroup (h : Grouped groups) : groupsOf (ungroup groups) = groups := by
  induction groups with
  | nil => exact groupsOf.eq_1
  | cons g rest ih =>
    have hround : (takeUp g.first (g.taken ++ ungroup rest)).2 = ungroup rest := by
      rw [h.takeUp_group]
    rw [ungroup_cons, groupsOf_append hround, ih h.tail]

/-- **The events of tokens are those of their groups**, one of each. -/
theorem map_event? (h : Grouped groups) :
    groups.map Group.event? = (eventsOf (ungroup groups)).map some := by
  induction groups with
  | nil =>
    rw [ungroup, List.flatMap_nil, eventsOf]
    rfl
  | cons g rest ih =>
    obtain ⟨event, hevent⟩ := Option.isSome_iff_exists.mp h.isSome_event?
    rw [ungroup_cons, eventsOf_cons, h.takeUp_group, hevent, List.map_cons, hevent, ih h.tail]
    rfl

end Grouped

/-! ## The tokens of a source come in groups -/

/-- Tokens that come in groups. -/
def InGroups (tokens : List Token) : Prop :=
  ∃ groups, Grouped groups ∧ ungroup groups = tokens

namespace InGroups

variable {t close : Token} {inner rest : List Token}

theorem leaf (h : InGroups rest) (ht : t.kind.isLeaf = true) : InGroups (t :: rest) := by
  obtain ⟨groups, hgroups, rfl⟩ := h
  exact ⟨_, hgroups.leaf ht, rfl⟩

theorem tag (h : InGroups rest) (ht : t.kind.opensTag = true)
    (hinner : ∀ x ∈ inner, x.kind.isInner = true) (hclose : close.kind.closesTag = true) :
    InGroups (t :: (inner ++ close :: rest)) := by
  obtain ⟨groups, hgroups, rfl⟩ := h
  refine ⟨_, hgroups.tag ht hinner hclose, ?_⟩
  rw [ungroup_cons, List.append_assoc]
  rfl

theorem body (h : InGroups rest) {body : Token} (ht : t.kind = .startTag)
    (hname : isRawText (t.tagName 1) = true) (hinner : ∀ x ∈ inner, x.kind.isInner = true)
    (hclose : close.kind = .tagEnd) (hbody : body.kind = .rawText)
    (hnext : ∀ x ∈ rest.head?, x.kind = .endTag) :
    InGroups (t :: (inner ++ close :: body :: rest)) := by
  obtain ⟨groups, hgroups, rfl⟩ := h
  have hfirst : ∀ g ∈ groups.head?, g.first.kind = .endTag :=
    fun g hg => hnext g.first (first_mem_head? g hg)
  refine ⟨_, hgroups.body ht hname hinner hclose hbody hfirst, ?_⟩
  rw [ungroup_cons, List.append_assoc]
  rfl

theorem cut (ht : t.kind.opensTag = true) (hinner : ∀ x ∈ inner, x.kind.isInner = true) :
    InGroups (t :: inner) := by
  refine ⟨_, Grouped.cut ht hinner, ?_⟩
  rw [ungroup_cons, ungroup, List.flatMap_nil, List.append_nil]

end InGroups

/-- **The tokens of a tag behind its name**: inner ones, and the one that ends it unless the source
does. Only a slash and a bracket close an element. -/
theorem tokensFrom_scanTag (o : Nat) (s : List Char) :
    ∃ inner, (∀ x ∈ inner, x.kind.isInner = true) ∧
      ((tokensFrom o (scanTag s).lexemes = inner ∧ (scanTag s).rest = []) ∨
        ∃ close, close.kind.closesTag = true ∧
          ((scanTag s).selfClosed = false → close.kind = .tagEnd) ∧
          tokensFrom o (scanTag s).lexemes = inner ++ [close]) := by
  have hclosing : ∀ {inner : List Lexeme} {kind : TokenKind} {text : List Char},
      (scanTag s).lexemes = inner ++ [⟨some kind, text⟩] → ∃ close : Token, close.kind = kind ∧
        tokensFrom o (scanTag s).lexemes = tokensFrom o inner ++ [close] := by
    intro inner kind text h
    rw [h, tokensFrom_append]
    exact ⟨_, rfl, rfl⟩
  obtain ⟨inner, hinner, ⟨hlexemes, hrest, -⟩ | ⟨hlexemes, -⟩ | ⟨hlexemes, hclosed⟩⟩ :=
    scanTag_ends s
  · exact ⟨_, isInner_kind_of_mem hinner, .inl ⟨congrArg (tokensFrom o) hlexemes, hrest⟩⟩
  · obtain ⟨close, hkind, htokens⟩ := hclosing hlexemes
    exact ⟨_, isInner_kind_of_mem hinner, .inr ⟨close, by rw [hkind]; rfl, fun _ => hkind, htokens⟩⟩
  · obtain ⟨close, hkind, htokens⟩ := hclosing hlexemes
    refine ⟨_, isInner_kind_of_mem hinner, .inr ⟨close, by rw [hkind]; rfl, ?_, htokens⟩⟩
    intro hopen
    rw [hclosed] at hopen
    cases hopen

/-- Behind the body of a raw-text element there is an end tag or nothing. -/
theorem head?_scan_rawBody {name : List Char}
    (hraw : isRawText (String.ofList (name.map Char.toLower)) = true) (o : Nat) (s : List Char) :
    ∀ x ∈ (tokensFrom o (scan (rawBody name s).2)).head?, x.kind = .endTag := by
  intro x hx
  rcases breakAt_snd (closesElement name) s with hnil | hcloses
  · rw [rawBody, hnil, scan] at hx
    cases hx
  · obtain ⟨name', more, hscan, -⟩ := scan_of_closesElement hraw hcloses
    rw [rawBody, hscan, tokensFrom] at hx
    cases hx
    rfl

/-- **A tag in front of tokens that come in groups**: it is one more group, with the body of a
raw-text element if it has one. -/
theorem inGroups_tagConstruct {kind : TokenKind} {opener s : List Char} (o : Nat)
    (hkind : kind.opensTag = true) (hopener : kind = .startTag → opener = ['<'])
    (hrest : ∀ o, InGroups (tokensFrom o (scan (tagConstruct kind opener s).2))) :
    InGroups (tokensFrom o
      ((tagConstruct kind opener s).1 ++ scan (tagConstruct kind opener s).2)) := by
  revert hrest
  dsimp only [tagConstruct]
  generalize s.takeWhile isTagNameChar = name
  generalize s.dropWhile isTagNameChar = v
  split
  · rename_i hbody
    simp only [Bool.and_eq_true, decide_eq_true_eq, Bool.not_eq_true'] at hbody
    obtain ⟨⟨rfl, hopen⟩, hraw⟩ := hbody
    intro hrest
    rw [hopener rfl, List.append_assoc, List.cons_append, tokensFrom, tokensFrom_append]
    obtain ⟨inner, hinner, ⟨htokens, hnil⟩ | ⟨close, -, hclose, htokens⟩⟩ :=
      tokensFrom_scanTag (o + Utf8.size (['<'] ++ name)) v
    · have hempty : rawBody name (scanTag v).rest = ([], []) := by
        rw [hnil, rawBody, breakAt_nil]
        rfl
      rw [htokens, hempty, List.nil_append, scan, tokensFrom, List.append_nil]
      exact .cut hkind hinner
    rw [htokens, List.append_assoc, tokensFrom_append]
    have hclose := hclose hopen
    by_cases hempty : (breakAt (closesElement name) (scanTag v).rest).1 = []
    · have hnone : (rawBody name (scanTag v).rest).1 = [] := by
        rw [rawBody, hempty]
        rfl
      rw [hnone]
      exact (hrest _).tag hkind hinner (by rw [hclose]; rfl)
    · have hone : (rawBody name (scanTag v).rest).1 =
          [⟨some .rawText, (breakAt (closesElement name) (scanTag v).rest).1⟩] := by
        simp [rawBody, lexemeOf, hempty]
      rw [hone, tokensFrom, tokensFrom]
      refine (hrest _).body rfl ?_ hinner hclose rfl (head?_scan_rawBody hraw _ _)
      exact (tagName_startTag name _).symm ▸ hraw
  · intro hrest
    rw [List.cons_append, tokensFrom, tokensFrom_append]
    obtain ⟨inner, hinner, ⟨htokens, hnil⟩ | ⟨close, hclose, -, htokens⟩⟩ :=
      tokensFrom_scanTag (o + Utf8.size (opener ++ name)) v
    · rw [htokens, hnil, scan, tokensFrom, List.append_nil]
      exact .cut hkind hinner
    · rw [htokens, List.append_assoc]
      exact (hrest _).tag hkind hinner hclose

/-- A construct begins with a token of one of the first kinds. -/
theorem isFirst_of_construct {s text : List Char} {kind : TokenKind} {more : List Lexeme}
    (h : (construct s).1 = ⟨some kind, text⟩ :: more) : kind.isFirst = true := by
  unfold construct at h
  iterate 4
    split at h
    · cases h
      rfl
  split at h
  · obtain ⟨more', hmore', -⟩ := exists_tagConstruct_eq_cons .endTag (s.take 2) (s.drop 2)
    rw [hmore'] at h
    cases h
    rfl
  · obtain ⟨more', hmore', -⟩ := exists_tagConstruct_eq_cons .startTag (s.take 1) (s.drop 1)
    rw [hmore'] at h
    cases h
    rfl

/-- **The tokens of a source come in groups.** -/
theorem inGroups_scan (o : Nat) (s : List Char) : InGroups (tokensFrom o (scan s)) := by
  fun_induction scan s generalizing o with
  | case1 => exact ⟨[], .done, rfl⟩
  | case2 c s hbegins ih =>
    rcases construct_cases hbegins with ⟨body, -, h⟩ | ⟨kind, text, rest, hlone, -, h⟩ |
        ⟨d, rest, -, -, h⟩ | ⟨d, rest, -, -, h⟩
    · rw [h] at ih ⊢
      exact (ih _).leaf rfl
    · -- The body of a raw-text element stands alone too, but it begins no construct.
      have hfirst := isFirst_of_construct (congrArg Prod.fst h)
      have hleaf : kind.isLeaf = true := by
        revert hlone hfirst
        cases kind <;> decide
      rw [h] at ih ⊢
      exact (ih _).leaf hleaf
    · rw [h] at ih ⊢
      refine inGroups_tagConstruct o rfl ?_ ih
      rintro ⟨⟩
    · rw [h] at ih ⊢
      exact inGroups_tagConstruct o rfl (fun _ => rfl) ih
  | case3 c s _ run ih => exact (ih _).leaf rfl

end Stencil.Markup
