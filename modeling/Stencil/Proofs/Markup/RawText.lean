import Stencil.Proofs.Markup.Constructs
import Stencil.Proofs.Markup.NormalForm

/-!
# The bodies of raw-text elements

The body of a raw-text element goes on up to a bracket and a slash with its name behind them, so
that the next token begins an end tag, if there is one. The name of that tag begins with the name of
the element, but it may go on: where the body ends the next character is not looked at. An end tag
closes an element of its whole name only. So the body is all that is in the element, unless the
end tag behind it has a name that is longer.

## Main definitions

* `Token.Nears`, `Token.Overshoots`: an end tag whose name begins with that of an element, and one
  whose name goes on behind it
* `RawEnds`, `Overshot`: what stands behind the body of a raw-text element, and an element behind
  whose body an end tag overshoots
* `RawBody`: what is in a raw-text element

## Main results

* `scan_of_closesElement`: the end tag at which a body ends
* `rawEnds_scan`: **behind the body of a raw-text element there is an end tag**
* `raw_text_body`: **the body is one text**, unless the end tag behind it overshoots
-/

namespace Stencil.Markup

open Stencil.Text

/-! ## The end of a body -/

/-- The names of raw-text elements are small letters. -/
theorem isLower_of_isRawText {name : String} (h : isRawText name = true) :
    name.toList ≠ [] ∧ ∀ c ∈ name.toList, c.isLower = true := by
  have hall : rawTextNames.all (fun name =>
      !name.toList.isEmpty && name.toList.all Char.isLower) = true := by decide
  have hname := List.all_eq_true.mp hall name (List.contains_iff_mem.mp h)
  simpa using hname

/-- **The end tag at which a body ends**: its name begins with the name of the element, whatever the
case of their letters. -/
theorem scan_of_closesElement {name s : List Char}
    (hraw : isRawText (String.ofList (name.map Char.toLower)) = true)
    (h : closesElement name s = true) :
    ∃ name' more, scan s = ⟨some .endTag, '<' :: '/' :: name'⟩ :: more ∧
      name.map Char.toLower <+: name'.map Char.toLower := by
  obtain ⟨w, rfl, hw⟩ := exists_of_closesElement h
  obtain ⟨hne, hlower⟩ := isLower_of_isRawText hraw
  rw [String.toList_ofList, ← hw] at hlower hne
  -- The characters that were compared are letters, so that they all belong to the name of the tag.
  have halpha : ∀ c ∈ w.take name.length, c.isAlpha = true := by
    intro c hc
    rw [← Char.isLower_toLower_eq_isAlpha]
    exact hlower _ (List.mem_map_of_mem hc)
  have hfront : w.take name.length <+: w.takeWhile isTagNameChar := by
    conv_rhs => rw [← List.take_append_drop name.length w]
    rw [List.takeWhile_append_of_pos fun c hc => isTagNameChar_of_isAlpha (halpha c hc)]
    exact List.prefix_append _ _
  have hbegins : beginsMarkup ('<' :: '/' :: w) = true := by
    obtain ⟨c, front, hcons⟩ := List.exists_cons_of_ne_nil (mt (congrArg (List.map _)) hne)
    have hw : w = c :: (front ++ w.drop name.length) := by
      rw [← List.cons_append, ← hcons, List.take_append_drop]
    rw [hw]
    exact halpha c (hcons ▸ List.mem_cons_self ..)
  obtain ⟨more, hmore, -⟩ := exists_tagConstruct_eq_cons .endTag ['<', '/'] w
  have hconstruct : construct ('<' :: '/' :: w) =
      (⟨some .endTag, '<' :: '/' :: w.takeWhile isTagNameChar⟩ :: more,
        (tagConstruct .endTag ['<', '/'] w).2) := Prod.ext hmore rfl
  refine ⟨w.takeWhile isTagNameChar, _, scan_of_construct hbegins hconstruct, ?_⟩
  rw [← hw]
  exact hfront.map _

/-- What ends a start tag behind its inner tokens. -/
theorem ending_startTagOf (t : Token) {inner : List Token}
    (hinner : ∀ x ∈ inner, x.kind.isInner = true) {rest : List Token}
    (hrest : ∀ x ∈ rest.head?, x.kind.isInner = false) :
    (startTagOf t (inner ++ rest)).1.ending = (endingOf rest).1 := by
  have hdrop : (inner ++ rest).dropWhile (fun x => x.kind.isInner) = rest := by
    rw [List.dropWhile_append_of_pos hinner]
    cases rest with
    | nil => rfl
    | cons x rest => rw [List.dropWhile_cons_of_neg (by simp [hrest x rfl])]
  rw [startTagOf, hdrop]

/-- A start tag that a bracket ends has nothing but inner tokens in front of the bracket. -/
theorem scanTag_of_ending {t : Token} {o : Nat} {s : List Char} {ls : List Lexeme}
    (hcut : (scanTag s).rest = [] → ls = [])
    (h : (startTagOf t (tokensFrom o ((scanTag s).lexemes ++ ls))).1.ending = .bracket) :
    (scanTag s).selfClosed = false ∧ ∃ inner, (∀ x ∈ inner, x.IsInner) ∧
      (scanTag s).lexemes = inner ++ [⟨some .tagEnd, ['>']⟩] := by
  obtain ⟨inner, hinner, ⟨hlexemes, hrest, -⟩ | ⟨hlexemes, hclosed⟩ | ⟨hlexemes, -⟩⟩ :=
    scanTag_ends s
  · rw [hcut hrest, hlexemes, tokensFrom_append, ending_startTagOf t (isInner_kind_of_mem hinner)]
      at h
    · cases h
    · intro x hx
      cases hx
  · exact ⟨hclosed, inner, hinner, hlexemes⟩
  · rw [hlexemes, List.append_assoc, tokensFrom_append,
      ending_startTagOf t (isInner_kind_of_mem hinner)] at h
    · cases h
    · intro x hx
      cases hx
      rfl

/-! ## The tokens of a source -/

/-- A token that begins an end tag whose name begins with the given name. -/
def Token.Nears (e : Token) (name : String) : Prop :=
  e.kind = .endTag ∧ name.toList <+: (e.tagName 2).toList

/-- Where a start tag opens a raw-text element, the token behind the body begins an end tag whose
name begins with the name of the element. -/
def RawEnds (t : Token) (rest : List Token) : Prop :=
  (startTagOf t rest).1.ending = .bracket → isRawText (t.tagName 1) = true →
    ∀ e ∈ (startTagOf t rest).2.head?, e.Nears (t.tagName 1)

/-- The body of a raw-text element is one token if it is not empty, and then comes the end tag. -/
theorem nears_of_mem_head? {name : List Char}
    (hraw : isRawText (String.ofList (name.map Char.toLower)) = true) (o : Nat) (s : List Char) :
    ∀ e ∈ (bodyOf (String.ofList (name.map Char.toLower)) .bracket
        (tokensFrom o ((rawBody name s).1 ++ scan (rawBody name s).2))).2.head?,
      e.Nears (String.ofList (name.map Char.toLower)) := by
  have hend : ∀ o, ∀ e ∈ (tokensFrom o (scan (rawBody name s).2)).head?,
      e.Nears (String.ofList (name.map Char.toLower)) := by
    intro o e he
    rcases breakAt_snd (closesElement name) s with hnil | hcloses
    · rw [rawBody, hnil, scan] at he
      cases he
    · obtain ⟨name', more, hscan, hname⟩ := scan_of_closesElement hraw hcloses
      rw [rawBody, hscan, tokensFrom] at he
      cases he
      refine ⟨rfl, ?_⟩
      simpa [Token.tagName, lowercase] using hname
  by_cases hempty : (breakAt (closesElement name) s).1 = []
  · have hbody : (rawBody name s).1 = [] := by
      rw [rawBody, hempty]
      rfl
    have hhead := hend o
    rw [hbody, List.nil_append]
    revert hhead
    generalize tokensFrom o (scan (rawBody name s).2) = tokens
    intro hhead
    cases tokens with
    | nil => exact hhead
    | cons x rest =>
      rwa [bodyOf, if_neg (by simp [(hhead x rfl).1])]
  · have hbody : (rawBody name s).1 =
        [⟨some .rawText, (breakAt (closesElement name) s).1⟩] := by
      simp [rawBody, lexemeOf, hempty]
    rw [hbody, List.cons_append, tokensFrom, bodyOf, if_pos (by simp [hraw])]
    exact hend _

/-- **Behind the body of a raw-text element there is an end tag**, unless the source ends. -/
theorem rawEnds_scan (o : Nat) (s : List Char) :
    ForTokens (fun kind => kind = .startTag) RawEnds (tokensFrom o (scan s)) := by
  refine forTokens_scan rfl ?_ o s
  intro o s text more hbegins hcons
  obtain ⟨c, rest, -, rfl, h⟩ := construct_of_startTag hbegins hcons
  intro hending hraw
  rw [tagName_startTag] at hraw ⊢
  generalize hn : (c :: rest).takeWhile isTagNameChar = name at hcons hending hraw ⊢
  generalize hv : (c :: rest).dropWhile isTagNameChar = v
  cases hclosed : (scanTag v).selfClosed with
  | true =>
    -- A tag that ends with a slash has no body, but neither does it end with a bracket.
    have hconstruct : construct s = (⟨some .startTag, '<' :: name⟩ :: (scanTag v).lexemes,
        (scanTag v).rest) := by
      rw [h, tagConstruct, hn, hv, hclosed]
      rfl
    rw [hconstruct] at hcons hending
    cases hcons
    have hopen := (scanTag_of_ending (fun hnil => by rw [hnil, scan]) hending).1
    rw [hclosed] at hopen
    cases hopen
  | false =>
    have hconstruct : construct s = (⟨some .startTag, '<' :: name⟩ ::
        ((scanTag v).lexemes ++ (rawBody name (scanTag v).rest).1),
        (rawBody name (scanTag v).rest).2) := by
      rw [h, tagConstruct, hn, hv, hclosed, hraw]
      rfl
    rw [hconstruct] at hcons hending ⊢
    cases hcons
    rw [List.append_assoc] at hending ⊢
    have hcut : (scanTag v).rest = [] →
        (rawBody name (scanTag v).rest).1 ++ scan (rawBody name (scanTag v).rest).2 = [] := by
      intro hnil
      rw [hnil, rawBody, breakAt_nil, scan]
      rfl
    obtain ⟨-, inner, hinner, hlexemes⟩ := scanTag_of_ending hcut hending
    rw [hlexemes, List.append_assoc, tokensFrom_append, List.cons_append, List.nil_append,
      tokensFrom, startTagOf_append _ (isInner_kind_of_mem hinner) rfl]
    rw [show lowercase _ = _ from tagName_startTag name {}]
    exact nears_of_mem_head? hraw _ _

/-! ## The bodies of a source -/

/-- A token that begins an end tag whose name begins with the given name and goes on. -/
def Token.Overshoots (e : Token) (name : String) : Prop :=
  e.Nears name ∧ e.tagName 2 ≠ name

/-- The start tag of an element, if an end tag overshoots behind its body. -/
def Overshot (tokens : List Token) (tag : Tag) : Prop :=
  ∃ t rest, t :: rest <:+ tokens ∧ tag.WrittenBy t rest ∧
    (startTagOf t rest).1.ending = .bracket ∧
    ∃ e ∈ (startTagOf t rest).2.head?, e.Overshoots tag.name

/-- What is in a raw-text element: one text at most, unless the end tag behind its own body
overshoots. -/
def RawBody (tokens : List Token) (tag : Tag) (children : List Node) : Prop :=
  isRawText tag.name = true →
    (children.length ≤ 1 ∧ ∀ child ∈ children, child.text?.isSome = true) ∨ Overshot tokens tag

theorem endFree_rawBody (tokens : List Token) : EndFree (RawBody tokens) := by
  intro tag stop children h hraw
  rcases h hraw with hone | ⟨t, rest, hsuffix, hwritten, hover⟩
  · exact .inl hone
  · exact .inr ⟨t, rest, hsuffix, hwritten.withEnd stop, hover⟩

/-- The body is there from the start, and the next event closes the element unless it overshoots. -/
theorem admits_rawBody (source : String) :
    Admits (RawBody (tokenize source)) (eventsOf (tokenize source)) := by
  intro s rest hsuffix
  obtain ⟨t, after, htokens, ht, rfl, rfl⟩ := exists_startTagOf hsuffix
  split
  · rename_i hopens
    refine ⟨?_, ?_⟩
    · intro _
      left
      unfold StartTag.content
      split <;> simp [Node.text?]
    · by_cases hraw : isRawText (t.tagName 1) = true
      swap
      · exact .inl fun children hname => absurd hname hraw
      have hbracket : (startTagOf t after).1.ending = .bracket := by
        rw [StartTag.opens, Bool.and_eq_true] at hopens
        exact of_decide_eq_true hopens.1
      have hwritten := writtenBy_startTagOf_tokenize htokens ht
      by_cases hover : ∃ e ∈ (startTagOf t after).2.head?, e.Overshoots (t.tagName 1)
      · exact .inl fun children _ => .inr ⟨t, after, htokens, hwritten, hbracket, hover⟩
      -- The name of the end tag is that of the element, since it does not go on.
      right
      have hends := rawEnds_scan 0 source.toList t after htokens (decide_eq_true ht) hbracket hraw
      cases hleft : (startTagOf t after).2 with
      | nil =>
        rw [eventsOf]
        intro e he
        cases he
      | cons x behind =>
        rw [hleft] at hends hover
        have hnears := hends x rfl
        rw [eventsOf, if_neg (by rw [hnears.1]; decide), if_pos hnears.1]
        rintro e ⟨⟩
        refine ⟨_, rfl, ?_⟩
        rw [name_endTagOf]
        by_contra hne
        exact hover ⟨x, rfl, hnears, hne⟩
  · exact fun _ => .inl ⟨Nat.zero_le _, List.forall_mem_nil _⟩

/-- **The body of a raw-text element is one text**: an element whose body is not markup has one
child at most, which is a text. The one exception is an element behind whose own body there is an
end tag with a name that begins with that of the element and goes on, so that it ends the body but
does not close the element. -/
theorem raw_text_body (source : String) {t : Tag} {children : List Node}
    (h : .element t children ∈ preorderAll (parse source).nodes) (hraw : isRawText t.name = true) :
    (children.length ≤ 1 ∧ ∀ child ∈ children, child.text?.isSome = true) ∨
      Overshot (tokenize source) t := by
  have hall : ElementsAll (RawBody (tokenize source)) (parse source).nodes :=
    elementsAll_parse (endFree_rawBody _) (admits_rawBody source)
  exact hall t children h hraw

/-- A body with markup in it, whose end tag is in other letters and has a space behind its name. -/
theorem raw_text_body_title :
    ∃ t children, .element t children ∈
        preorderAll (parse "<p><TITLE>a<b>&lt;</p></Title ></p>").nodes ∧
      isRawText t.name = true ∧ children.map Node.text? = [some "a<b><</p>"] ∧
      ((children.length ≤ 1 ∧ ∀ child ∈ children, child.text?.isSome = true) ∨
        Overshot (tokenize "<p><TITLE>a<b>&lt;</p></Title ></p>") t) := by
  obtain ⟨t, children, hmem, hname, htexts⟩ := exists_element_of_glance
    (parse "<p><TITLE>a<b>&lt;</p></Title ></p>").nodes "title" [some "a<b><</p>"]
    (by decide +kernel)
  have hraw : isRawText t.name = true := by
    rw [hname]
    decide
  exact ⟨t, children, hmem, hraw, htexts, raw_text_body _ hmem hraw⟩

/-- An end tag whose name goes on cuts the body in two. -/
theorem raw_text_body_overshot :
    ¬ ∀ source t children, .element t children ∈ preorderAll (parse source).nodes →
      isRawText t.name = true →
      children.length ≤ 1 ∧ ∀ child ∈ children, child.text?.isSome = true := by
  intro h
  obtain ⟨t, children, hmem, hname, htexts⟩ := exists_element_of_glance
    (parse "<title>a</titlex>b</title>").nodes "title" [some "a", some "b"] (by decide +kernel)
  have hone := (h _ t children hmem (by rw [hname]; decide)).1
  rw [← List.length_map Node.text?, htexts] at hone
  revert hone
  decide

end Stencil.Markup
