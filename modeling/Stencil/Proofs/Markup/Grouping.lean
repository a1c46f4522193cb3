import Stencil.Proofs.Markup.Scanning

/-!
# The events of what was written

The lexemes of a written forest become tokens, which are grouped into events: one for a leaf, one
for a start tag with its attributes, one for an end tag. Each event says what was written, at a
place that depends on what stands in front.

## Main definitions

* `eventsAt o s`: the events of a text that begins at an offset

## Main results

* `eventsAt_text`, `eventsAt_comment`, `eventsAt_other`: the event of a leaf
* `eventsAt_renderStart`, `eventsAt_renderEnd`: the event of a tag
* `eventsAt_rawElement`: the two events of a raw-text element
-/

namespace Stencil.Markup

open Stencil.Text

/-- The events of a text that begins at an offset. -/
def eventsAt (o : Nat) (s : List Char) : List Event :=
  eventsOf (tokensFrom o (scan s))

theorem tokensFrom_append (o : Nat) (l m : List Lexeme) :
    tokensFrom o (l ++ m) = tokensFrom o l ++ tokensFrom (o + Utf8.size (flat l)) m := by
  induction l generalizing o with
  | nil => rfl
  | cons x l ih =>
    obtain ⟨kind, text⟩ := x
    rw [flat_cons, Utf8.size_append, ← Nat.add_assoc]
    cases kind with
    | none => exact ih _
    | some kind => exact congrArg _ (ih _)

/-! ## Leaves -/

/-- A token with an event of its own. -/
theorem eventsOf_leaf {t : Token} {e : Event} (h : leafOf t = some e) (ts : List Token) :
    eventsOf (t :: ts) = e :: eventsOf ts := by
  have hstart : t.kind ≠ .startTag := by
    intro hk
    rw [leafOf, hk] at h
    cases h
  have hend : t.kind ≠ .endTag := by
    intro hk
    rw [leafOf, hk] at h
    cases h
  rw [eventsOf, if_neg hstart, if_neg hend, h]

/-- A lexeme with an event of its own, which has the place of the lexeme. -/
theorem eventsAt_leaf (o : Nat) {s rest text : List Char} {kind : TokenKind} {e : Span → Event}
    (hscan : scan s = ⟨some kind, text⟩ :: scan rest)
    (h : ∀ span, leafOf ⟨kind, String.ofList text, span⟩ = some (e span)) :
    ∃ span o', eventsAt o s = e span :: eventsAt o' rest := by
  refine ⟨⟨o, o + Utf8.size text⟩, o + Utf8.size text, ?_⟩
  rw [eventsAt, hscan, tokensFrom, eventsOf_leaf (h _)]
  rfl

/-- A construct is its text between its markers. -/
theorem between_eq (opener s closer : List Char) :
    between opener closer (opener ++ s ++ closer) = s := by
  rw [between, List.append_assoc, List.drop_left,
    if_pos (List.isSuffixOf_iff_suffix.mpr (List.suffix_append s closer)), List.length_append,
    Nat.add_sub_cancel, List.take_left]

theorem commentBody_eq (s : List Char) :
    commentBody (['<', '!', '-', '-'] ++ s ++ ['-', '-', '>']) = (s, true) := by
  have hdrop : (['<', '!', '-', '-'] ++ s ++ ['-', '-', '>']).drop 4 = s ++ ['-', '-', '>'] := rfl
  rw [commentBody, hdrop, if_pos (List.isSuffixOf_iff_suffix.mpr (List.suffix_append s _)),
    List.length_append]
  exact congrArg (·, true) (List.take_left ..)

theorem decode_escape (m : Mark) (s : String) :
    Reference.decode (String.ofList (m.escape s.toList)) = s := by
  rw [Reference.decode, String.toList_ofList, m.decodeChars_escape, String.ofList_toList]

theorem eventsAt_text (o : Nat) {s : String} (hs : s ≠ "") {rest : List Char}
    (hrest : StopsText rest) :
    ∃ span o', eventsAt o (Mark.bracket.escape s.toList ++ rest)
      = .text s span :: eventsAt o' rest := by
  have hne : s.toList ≠ [] := by simpa using hs
  refine eventsAt_leaf o (scan_text (Mark.bracket.escape_ne_nil hne)
    (Mark.bracket_notMem_escape _) hrest) fun span => ?_
  rw [leafOf, decode_escape]

theorem eventsAt_comment (o : Nat) {s : String} (hs : ¬ ['-', '-', '>'] <:+: s.toList)
    (rest : List Char) :
    ∃ span o', eventsAt o (['<', '!', '-', '-'] ++ s.toList ++ ['-', '-', '>'] ++ rest)
      = .comment s span true :: eventsAt o' rest := by
  refine eventsAt_leaf o (scan_comment hs rest) fun span => ?_
  simp only [leafOf, String.toList_ofList, commentBody_eq, String.ofList_toList]

theorem eventsAt_other (o : Nat) {kind : OtherKind} {s : String} (hs : kind.Canonical s.toList)
    (rest : List Char) :
    ∃ span o', eventsAt o (kind.opener ++ s.toList ++ kind.closer ++ rest)
      = .other kind s span :: eventsAt o' rest := by
  refine eventsAt_leaf o (scan_other hs rest) fun span => ?_
  have hbetween : String.ofList (between kind.opener kind.closer
      (String.ofList (kind.opener ++ s.toList ++ kind.closer)).toList) = s := by
    rw [String.toList_ofList, between_eq, String.ofList_toList]
  cases kind with
  | doctype => exact congrArg (fun s => some (Event.other .doctype s span)) hbetween
  | instruction => exact congrArg (fun s => some (Event.other .instruction s span)) hbetween
  | cdata => exact congrArg (fun s => some (Event.other .cdata s span)) hbetween

/-! ## Attributes -/

theorem lowercase_eq {s : String} (h : s.toList.map Char.toLower = s.toList) : lowercase s = s := by
  rw [lowercase, h, String.ofList_toList]

/-- A value in quotes is read back. -/
theorem valueOf_quoted (v : String) :
    valueOf (String.ofList ('"' :: (Mark.quote.escape v.toList ++ ['"']))) = v := by
  rw [valueOf, String.toList_ofList, unquote, if_pos (by simp), List.dropLast_concat,
    Mark.quote.decodeChars_escape, String.ofList_toList]

theorem itemsOf_attribute {n e v : Token} (hn : n.kind = .attrName) (he : e.kind = .equals)
    (hv : v.kind = .attrValue) (ts : List Token) :
    itemsOf (n :: e :: v :: ts)
      = .attribute ⟨lowercase n.text, valueOf v.text, (n.span.cover e.span).cover v.span⟩
        :: itemsOf ts := by
  rw [itemsOf]
  simp [hn, he, hv]

/-- The tokens of an attribute are read as that attribute. -/
theorem itemsOf_lexemes (o : Nat) {a : Attribute} (h : IsAttributeName a.name.toList)
    (ls : List Lexeme) :
    ∃ a' o', a'.unplaced = a.unplaced ∧
      itemsOf (tokensFrom o (a.lexemes ++ ls)) = .attribute a' :: itemsOf (tokensFrom o' ls) := by
  refine ⟨_, _, ?_, itemsOf_attribute rfl rfl rfl _⟩
  have hname : lowercase (String.ofList a.name.toList) = a.name := by
    rw [String.ofList_toList, lowercase_eq h.map_toLower]
  rw [hname, valueOf_quoted]
  rfl

theorem itemsOf_attributes (o : Nat) {attributes : List Attribute}
    (h : ∀ a ∈ attributes, IsAttributeName a.name.toList) :
    ∃ attributes' : List Attribute,
      attributes'.map Attribute.unplaced = attributes.map Attribute.unplaced ∧
      itemsOf (tokensFrom o (attributes.flatMap Attribute.lexemes))
        = attributes'.map TagItem.attribute := by
  induction attributes generalizing o with
  | nil => exact ⟨[], rfl, by rw [List.flatMap_nil, tokensFrom, itemsOf]; rfl⟩
  | cons a attributes ih =>
    obtain ⟨a', o', ha, hitems⟩ := itemsOf_lexemes o (h a (List.mem_cons_self ..))
      (attributes.flatMap Attribute.lexemes)
    obtain ⟨rest, hrest, hmore⟩ := ih o' fun b hb => h b (List.mem_cons_of_mem a hb)
    refine ⟨a' :: rest, by rw [List.map_cons, List.map_cons, ha, hrest], ?_⟩
    rw [List.flatMap_cons, hitems, hmore, List.map_cons]

theorem attributesOf_map (attributes : List Attribute) :
    attributesOf (attributes.map TagItem.attribute) = attributes := by
  rw [attributesOf, List.filterMap_map]
  exact List.filterMap_some

theorem straysOf_map (attributes : List Attribute) :
    straysOf (attributes.map TagItem.attribute) = [] := by
  rw [straysOf, List.filterMap_map]
  exact List.filterMap_eq_nil_iff.mpr fun _ _ => rfl

/-- Attributes with different names are all kept. -/
theorem firstOfEachName_eq {attributes : List Attribute}
    (h : (attributes.map (·.name)).Nodup) : firstOfEachName attributes = attributes := by
  induction attributes with
  | nil => rfl
  | cons a attributes ih =>
    obtain ⟨ha, hrest⟩ := List.nodup_cons.mp h
    rw [firstOfEachName, ih hrest]
    refine congrArg _ (List.filter_eq_self.mpr fun b hb => ?_)
    exact decide_eq_true fun hab => ha (List.mem_map.mpr ⟨b, hb, hab⟩)

/-! ## Tags -/

theorem isInner_of_mem_tokensFrom (o : Nat) (attributes : List Attribute) :
    ∀ t ∈ tokensFrom o (attributes.flatMap Attribute.lexemes), t.kind.isInner = true := by
  induction attributes generalizing o with
  | nil =>
    intro t ht
    cases ht
  | cons a attributes ih =>
    intro t ht
    rw [List.flatMap_cons, tokensFrom_append, List.mem_append] at ht
    rcases ht with ht | ht
    · simp only [Attribute.lexemes, tokensFrom, List.mem_cons, List.not_mem_nil, or_false] at ht
      rcases ht with rfl | rfl | rfl <;> rfl
    · exact ih _ t ht

/-- A start tag that a bracket ends: its inner tokens are its attributes, and the next token may be
its body. -/
theorem startTagOf_append (t : Token) {inner : List Token} (hi : ∀ x ∈ inner, x.kind.isInner = true)
    {e : Token} (he : e.kind = .tagEnd) (ts : List Token) :
    startTagOf t (inner ++ e :: ts) =
      let name := lowercase (String.ofList (t.text.toList.drop 1))
      ({ tag :=
          { name
            attributes := firstOfEachName (attributesOf (itemsOf inner))
            span := coverAll t.span (inner ++ [e]) }
         strays := straysOf (itemsOf inner)
         ending := .bracket
         body := (bodyOf name .bracket ts).1 }, (bodyOf name .bracket ts).2) := by
  have hdrop : (inner ++ e :: ts).dropWhile (fun x => x.kind.isInner) = e :: ts := by
    rw [List.dropWhile_append_of_pos hi, List.dropWhile_cons_of_neg (by rw [he]; decide)]
  have htake : (inner ++ e :: ts).takeWhile (fun x => x.kind.isInner) = inner := by
    rw [List.takeWhile_append_of_pos hi, List.takeWhile_cons_of_neg (by rw [he]; decide),
      List.append_nil]
  have hending : endingOf (e :: ts) = (.bracket, [e], ts) := if_pos he
  rw [startTagOf, hdrop, htake, hending]

/-- The name that the first token of a tag carries behind its brackets. -/
theorem lowercase_drop {name : String} (h : IsElementName name.toList) (opener : List Char) :
    lowercase (String.ofList ((String.ofList (opener ++ name.toList)).toList.drop opener.length))
      = name := by
  rw [String.toList_ofList, List.drop_left, String.ofList_toList, lowercase_eq h.map_toLower]

/-- The tokens of a start tag are read as that tag, and the next token may be its body. -/
theorem eventsOf_startLexemes (o : Nat) {t : Tag} (ht : t.Canonical) (ls : List Lexeme) :
    ∃ (t' : Tag) (o' : Nat), t'.unplaced = t.unplaced ∧
      eventsOf (tokensFrom o (t.startLexemes ++ ls)) =
        .start ⟨t', [], .bracket, (bodyOf t.name .bracket (tokensFrom o' ls)).1⟩
          :: eventsOf (bodyOf t.name .bracket (tokensFrom o' ls)).2 := by
  obtain ⟨attributes, hattributes, hitems⟩ :=
    itemsOf_attributes (o + Utf8.size ('<' :: t.name.toList)) ht.attributes
  have hnames : attributes.map (·.name) = t.attributes.map (·.name) := by
    have := congrArg (List.map (·.name)) hattributes
    rwa [List.map_map, List.map_map] at this
  have hdistinct : (attributes.map (·.name)).Nodup := hnames ▸ ht.distinct
  have hinner := isInner_of_mem_tokensFrom (o + Utf8.size ('<' :: t.name.toList)) t.attributes
  rw [Tag.startLexemes, List.cons_append, List.append_assoc, tokensFrom, tokensFrom_append,
    List.cons_append, List.nil_append, tokensFrom, eventsOf, if_pos rfl,
    startTagOf_append _ hinner rfl, hitems, attributesOf_map, straysOf_map,
    firstOfEachName_eq hdistinct]
  have hname := lowercase_drop ht.name ['<']
  simp only [List.cons_append, List.nil_append, List.length_singleton] at hname
  simp only [hname]
  refine ⟨_, _, ?_, rfl⟩
  rw [Tag.unplaced, hattributes]
  rfl

/-- Only raw-text elements have a body in their start tag. -/
theorem bodyOf_of_not_isRawText {name : String} (h : isRawText name = false) (ts : List Token) :
    bodyOf name .bracket ts = (none, ts) := by
  cases ts with
  | nil => rfl
  | cons t ts => rw [bodyOf, h]; rfl

/-- The start tag of an element that is no raw-text element. -/
theorem eventsAt_renderStart (o : Nat) {t : Tag} (ht : t.Canonical)
    (hraw : isRawText t.name = false) (rest : List Char) :
    ∃ (t' : Tag) (o' : Nat), t'.unplaced = t.unplaced ∧
      eventsAt o (t.renderStart ++ rest) = .start ⟨t', [], .bracket, none⟩ :: eventsAt o' rest := by
  obtain ⟨t', o', ht', hevents⟩ := eventsOf_startLexemes o ht (scan rest)
  rw [bodyOf_of_not_isRawText hraw] at hevents
  refine ⟨t', o', ht', ?_⟩
  rw [eventsAt, scan_renderStart ht hraw]
  exact hevents

/-- An end tag that a bracket ends. -/
theorem eventsOf_endTag {t e : Token} (ht : t.kind = .endTag) (he : e.kind = .tagEnd)
    (ts : List Token) :
    eventsOf (t :: e :: ts)
      = .stop ⟨lowercase (String.ofList (t.text.toList.drop 2)), t.span.cover e.span, true⟩
        :: eventsOf ts := by
  have hskip : e.kind.isSkipped = false := by rw [he]; rfl
  have htag : endTagOf t (e :: ts)
      = (⟨lowercase (String.ofList (t.text.toList.drop 2)), t.span.cover e.span, true⟩, ts) := by
    rw [endTagOf, List.dropWhile_cons_of_neg (by simp [hskip]),
      List.takeWhile_cons_of_neg (by simp [hskip])]
    exact if_pos he
  rw [eventsOf, if_neg (by rw [ht]; decide), if_pos ht, htag]

theorem eventsOf_endLexemes (o : Nat) {name : String} (h : IsElementName name.toList)
    (ls : List Lexeme) :
    ∃ span o', eventsOf (tokensFrom o (endLexemes name ++ ls))
      = .stop ⟨name, span, true⟩ :: eventsOf (tokensFrom o' ls) := by
  have hevents := eventsOf_endTag
    (t := ⟨.endTag, String.ofList ('<' :: '/' :: name.toList),
      ⟨o, o + Utf8.size ('<' :: '/' :: name.toList)⟩⟩)
    (e := ⟨.tagEnd, String.ofList ['>'], ⟨o + Utf8.size ('<' :: '/' :: name.toList),
      o + Utf8.size ('<' :: '/' :: name.toList) + Utf8.size ['>']⟩⟩) rfl rfl
    (tokensFrom (o + Utf8.size ('<' :: '/' :: name.toList) + Utf8.size ['>']) ls)
  have hname : lowercase (String.ofList ((String.ofList ('<' :: '/' :: name.toList)).toList.drop 2))
      = name := lowercase_drop h ['<', '/']
  rw [hname] at hevents
  exact ⟨_, _, hevents⟩

theorem eventsAt_renderEnd (o : Nat) {name : String} (h : IsElementName name.toList)
    (rest : List Char) :
    ∃ span o', eventsAt o (renderEnd name ++ rest)
      = .stop ⟨name, span, true⟩ :: eventsAt o' rest := by
  rw [eventsAt, scan_renderEnd h]
  exact eventsOf_endLexemes o h (scan rest)

/-- **A raw-text element** is its start tag, with its body if that is not empty, and its end tag. -/
theorem eventsAt_rawElement (o : Nat) {t : Tag} (ht : t.Canonical) (hraw : isRawText t.name = true)
    {body rest : List Char} (hbody : NeverCloses t.name.toList body (renderEnd t.name ++ rest)) :
    ∃ (t' : Tag) (token : Option Token) (span : Span) (o' : Nat), t'.unplaced = t.unplaced ∧
      token.map (·.text) = (if body = [] then none else some (String.ofList body)) ∧
      eventsAt o (t.renderStart ++ (body ++ (renderEnd t.name ++ rest)))
        = .start ⟨t', [], .bracket, token⟩ :: .stop ⟨t.name, span, true⟩ :: eventsAt o' rest := by
  obtain ⟨t', o₁, ht', hstart⟩ := eventsOf_startLexemes o ht
    (lexemeOf (some .rawText) body ++ (endLexemes t.name ++ scan rest))
  rw [eventsAt, scan_rawElement ht hraw hbody, hstart]
  by_cases hnil : body = []
  · subst hnil
    obtain ⟨span, o', hend⟩ := eventsOf_endLexemes o₁ ht.name (scan rest)
    have hnone : bodyOf t.name .bracket (tokensFrom o₁ (endLexemes t.name ++ scan rest))
        = (none, tokensFrom o₁ (endLexemes t.name ++ scan rest)) := by
      simp [endLexemes, tokensFrom, bodyOf]
    have hlexeme : lexemeOf (some .rawText) [] = [] := rfl
    refine ⟨t', none, span, o', ht', rfl, ?_⟩
    rw [hlexeme, List.nil_append, hnone, hend]
    rfl
  · obtain ⟨span, o', hend⟩ := eventsOf_endLexemes (o₁ + Utf8.size body) ht.name (scan rest)
    have hlexeme : lexemeOf (some .rawText) body = [⟨some .rawText, body⟩] := by
      simp [lexemeOf, hnil]
    refine ⟨t', some ⟨.rawText, String.ofList body, ⟨o₁, o₁ + Utf8.size body⟩⟩, span, o', ht',
      by rw [if_neg hnil]; rfl, ?_⟩
    rw [hlexeme, List.cons_append, List.nil_append, tokensFrom, bodyOf, if_pos (by simp [hraw]),
      hend]
    rfl

end Stencil.Markup
