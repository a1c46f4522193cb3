import Stencil.Proofs.Markup.Rendering
import Stencil.Proofs.Text.Search

/-!
# Scanning what was written

The markup of a node in canonical form is cut into the lexemes that were meant, whatever follows it.
Text is the one exception: it goes on until markup begins, so that what follows has to begin markup
or be empty.

## Main definitions

* `Attribute.lexemes`, `Tag.startLexemes`, `endLexemes`: the lexemes of tags
* `StopsText`: what may follow a text
* `NeverCloses`: a body in which the end tag of its element does not begin

## Main results

* `scan_text`, `scan_comment`, `scan_other`: the lexeme of a leaf
* `scan_renderStart`, `scan_renderEnd`: the lexemes of a tag
* `scan_rawElement`: the lexemes of a raw-text element
-/

namespace Stencil.Markup

open Stencil.Text

/-! ## Between tags -/

/-- What may follow a text: nothing, or the beginning of markup. -/
def StopsText (s : List Char) : Prop :=
  s = [] ∨ beginsMarkup s = true

theorem scan_of_construct {s rest : List Char} {ls : List Lexeme} (hb : beginsMarkup s = true)
    (hc : construct s = (ls, rest)) : scan s = ls ++ scan rest := by
  cases s with
  | nil => cases hb
  | cons c s => rw [scan, if_pos hb, hc]

theorem beginsMarkup_of_ne {c : Char} (h : c ≠ '<') (s : List Char) :
    beginsMarkup (c :: s) = false := by
  unfold beginsMarkup
  split <;> simp_all

theorem beginsMarkup_of_isAlpha {c : Char} (hc : c.isAlpha = true) (s : List Char) :
    beginsMarkup ('<' :: c :: s) = true := by
  unfold beginsMarkup
  split <;> simp_all

/-- Text without a bracket is one lexeme. -/
theorem scan_text {s rest : List Char} (hne : s ≠ []) (hs : '<' ∉ s) (hrest : StopsText rest) :
    scan (s ++ rest) = ⟨some .text, s⟩ :: scan rest := by
  have hbegins : ∀ u v, s = u ++ v → v ≠ [] → beginsMarkup (v ++ rest) = false := by
    intro u v hsv hv
    obtain ⟨c, v, rfl⟩ := List.exists_cons_of_ne_nil hv
    refine beginsMarkup_of_ne ?_ _
    rintro rfl
    exact hs (hsv ▸ List.mem_append_right u (List.mem_cons_self ..))
  obtain ⟨c, s, rfl⟩ := List.exists_cons_of_ne_nil hne
  have hrun : breakAt beginsMarkup (s ++ rest) = (s, rest) := by
    refine breakAt_append_eq ?_ hrest
    intro u v hsv
    exact hbegins (c :: u) v (by rw [hsv, List.cons_append])
  have hhead : beginsMarkup (c :: (s ++ rest)) = false :=
    hbegins [] (c :: s) rfl (List.cons_ne_nil _ _)
  rw [List.cons_append, scan, if_neg (Bool.eq_false_iff.mp hhead), hrun]

/-! ## Constructs between markers -/

/-- A construct between markers ends with the first end marker behind it. -/
theorem delimited_eq (kind : TokenKind) (opener : List Char) {closer s : List Char}
    (hc : Unbordered closer) (hs : ¬ closer <:+: s) (rest : List Char) :
    delimited kind opener closer (opener ++ s ++ closer ++ rest)
      = ([⟨some kind, opener ++ s ++ closer⟩], rest) := by
  dsimp only [delimited]
  rw [List.append_assoc, List.append_assoc, List.drop_left, List.take_left,
    breakPast_append_eq hc hs, List.append_assoc]

/-- The kind of lexeme of a construct that is not compiled. -/
def OtherKind.tokenKind : OtherKind → TokenKind
  | doctype => .doctype
  | instruction => .instruction
  | cdata => .cdata

/-- A marker that cannot reach beyond a text that ends with a bracket. -/
theorem isPrefixOf_append_bracket {m s : List Char} (hm : '>' ∉ m) (rest : List Char)
    (h : m <+: s ++ '>' :: rest) : m <+: s := by
  rcases Nat.lt_or_ge s.length m.length with hlt | hge
  · have hb : s ++ ['>'] <+: m := by
      refine List.prefix_of_prefix_length_le ?_ h (by rw [List.length_append]; exact hlt)
      exact ⟨rest, by simp⟩
    exact absurd (hb.subset (List.mem_append_right s (List.mem_singleton.mpr rfl))) hm
  · exact List.prefix_of_prefix_length_le h (List.prefix_append s _) hge

theorem singleton_infix_iff {c : Char} {s : List Char} : [c] <:+: s ↔ c ∈ s := by
  constructor
  · intro h
    exact h.subset (List.mem_singleton.mpr rfl)
  · intro h
    obtain ⟨u, v, rfl⟩ := List.append_of_mem h
    exact ⟨u, v, by simp⟩

/-! ## Which construct begins -/

theorem construct_comment (s : List Char) :
    construct ('<' :: '!' :: '-' :: '-' :: s)
      = delimited .comment ['<', '!', '-', '-'] ['-', '-', '>'] ('<' :: '!' :: '-' :: '-' :: s) :=
  rfl

theorem construct_cdata (s : List Char) :
    construct (OtherKind.cdata.opener ++ s)
      = delimited .cdata OtherKind.cdata.opener OtherKind.cdata.closer
        (OtherKind.cdata.opener ++ s) := rfl

theorem construct_doctype {s : List Char} (hcomment : ¬ ['-', '-'] <+: s)
    (hcdata : ¬ ['[', 'C', 'D', 'A', 'T', 'A', '['] <+: s) :
    construct ('<' :: '!' :: s) = delimited .doctype ['<', '!'] ['>'] ('<' :: '!' :: s) := by
  rw [← List.isPrefixOf_iff_prefix] at hcomment hcdata
  -- Both tests get past the two characters that all declarations have.
  exact (if_neg hcomment).trans ((if_neg hcdata).trans rfl)

theorem construct_instruction (s : List Char) :
    construct ('<' :: '?' :: s) = delimited .instruction ['<', '?'] ['>'] ('<' :: '?' :: s) := rfl

theorem construct_endTag (s : List Char) :
    construct ('<' :: '/' :: s) = tagConstruct .endTag ['<', '/'] s := rfl

theorem construct_startTag {c : Char} (hc : c.isAlpha = true) (s : List Char) :
    construct ('<' :: c :: s) = tagConstruct .startTag ['<'] (c :: s) := by
  have hne : ∀ d : Char, d.isAlpha = false → (d == c) = false := by
    intro d hd
    rw [beq_eq_false_iff_ne]
    rintro rfl
    rw [hc] at hd
    cases hd
  simp [construct, List.isPrefixOf, hne '!' rfl, hne '?' rfl, hne '/' rfl]

/-! ## Leaves -/

theorem scan_comment {s : List Char} (hs : ¬ ['-', '-', '>'] <:+: s) (rest : List Char) :
    scan (['<', '!', '-', '-'] ++ s ++ ['-', '-', '>'] ++ rest)
      = ⟨some .comment, ['<', '!', '-', '-'] ++ s ++ ['-', '-', '>']⟩ :: scan rest := by
  have h := delimited_eq .comment ['<', '!', '-', '-'] (by decide) hs rest
  exact scan_of_construct rfl ((construct_comment _).trans h)

theorem scan_other {kind : OtherKind} {s : List Char} (hs : kind.Canonical s) (rest : List Char) :
    scan (kind.opener ++ s ++ kind.closer ++ rest)
      = ⟨some kind.tokenKind, kind.opener ++ s ++ kind.closer⟩ :: scan rest := by
  cases kind with
  | doctype =>
    obtain ⟨hclose, hcomment, hcdata⟩ := hs
    have h := delimited_eq .doctype ['<', '!'] (by decide) (mt singleton_infix_iff.mp hclose) rest
    have hdoctype : construct (['<', '!'] ++ s ++ ['>'] ++ rest)
        = delimited .doctype ['<', '!'] ['>'] (['<', '!'] ++ s ++ ['>'] ++ rest) := by
      rw [List.append_assoc, List.append_assoc]
      exact construct_doctype (mt (isPrefixOf_append_bracket (by decide) rest) hcomment)
        (mt (isPrefixOf_append_bracket (by decide) rest) hcdata)
    exact scan_of_construct rfl (hdoctype.trans h)
  | instruction =>
    have h := delimited_eq .instruction ['<', '?'] (by decide) (mt singleton_infix_iff.mp hs) rest
    exact scan_of_construct rfl ((construct_instruction _).trans h)
  | cdata =>
    have h := delimited_eq .cdata OtherKind.cdata.opener (by decide) hs rest
    exact scan_of_construct rfl ((construct_cdata _).trans h)

/-! ## Names -/

theorem isTagNameChar_iff {c : Char} : isTagNameChar c = true ↔ c ∉ elementNameEnds := by
  simp [isTagNameChar, isSeparator, elementNameEnds, and_assoc]

/-- No letter ends the name of an element. -/
theorem isAlpha_of_mem_elementNameEnds {c : Char} (h : c ∈ elementNameEnds) :
    c.isAlpha = false := by
  have hall : elementNameEnds.all (fun c => !c.isAlpha) = true := by decide
  simpa using List.all_eq_true.mp hall c h

theorem isTagNameChar_of_isAlpha {c : Char} (h : c.isAlpha = true) : isTagNameChar c = true := by
  rw [isTagNameChar_iff]
  intro hc
  rw [isAlpha_of_mem_elementNameEnds hc] at h
  cases h

theorem IsElementName.isTagNameChar {name : List Char} (h : IsElementName name) :
    ∀ c ∈ name, isTagNameChar c = true :=
  fun c hc => isTagNameChar_iff.mpr (h.chars c hc).2

theorem IsElementName.map_toLower {name : List Char} (h : IsElementName name) :
    name.map Char.toLower = name :=
  map_toLower_eq fun c hc => (h.chars c hc).1

theorem IsElementName.exists_cons {name : List Char} (h : IsElementName name) :
    ∃ c tail, name = c :: tail ∧ c.isLower = true := by
  cases name with
  | nil => cases h.head
  | cons c tail => exact ⟨c, tail, rfl, h.head⟩

theorem isAttrNameChar_iff {c : Char} : isAttrNameChar c = true ↔ c ∉ attributeNameEnds := by
  simp only [isAttrNameChar, isSeparator, attributeNameEnds, elementNameEnds, Bool.not_eq_true',
    Bool.or_eq_false_iff, decide_eq_false_iff_not, List.cons_append, List.nil_append,
    List.mem_cons, List.not_mem_nil, or_false, not_or]
  tauto

theorem IsAttributeName.isAttrNameChar {name : List Char} (h : IsAttributeName name) :
    ∀ c ∈ name, isAttrNameChar c = true :=
  fun c hc => isAttrNameChar_iff.mpr (h.chars c hc).2

/-- What a character of an attribute's name is not. -/
theorem of_isAttrNameChar {c : Char} (h : isAttrNameChar c = true) :
    isSeparator c = false ∧ c ∉ ['"', '\x27', '<', '>', '/', '='] := by
  simp only [isAttrNameChar, Bool.not_eq_true', Bool.or_eq_false_iff, decide_eq_false_iff_not] at h
  simp [h]

theorem IsAttributeName.map_toLower {name : List Char} (h : IsAttributeName name) :
    name.map Char.toLower = name :=
  map_toLower_eq fun c hc => (h.chars c hc).1

/-! ## Inside a tag -/

/-- The lexemes of an attribute. -/
def Attribute.lexemes (a : Attribute) : List Lexeme :=
  [⟨none, [' ']⟩, ⟨some .attrName, a.name.toList⟩, ⟨some .equals, ['=']⟩,
    ⟨some .attrValue, '"' :: (Mark.quote.escape a.value.toList ++ ['"'])⟩]

/-- The lexemes of a start tag. -/
def Tag.startLexemes (t : Tag) : List Lexeme :=
  ⟨some .startTag, '<' :: t.name.toList⟩
    :: (t.attributes.flatMap Attribute.lexemes ++ [⟨some .tagEnd, ['>']⟩])

/-- The lexemes of an end tag. -/
def endLexemes (name : String) : List Lexeme :=
  [⟨some .endTag, '<' :: '/' :: name.toList⟩, ⟨some .tagEnd, ['>']⟩]

/-- A scanned tag with lexemes in front. -/
def TagScan.after (ls : List Lexeme) (t : TagScan) : TagScan :=
  ⟨ls ++ t.lexemes, t.rest, t.selfClosed⟩

theorem TagScan.after_after (ls ms : List Lexeme) (t : TagScan) :
    (t.after ms).after ls = t.after (ls ++ ms) := by
  rw [after, after, after, List.append_assoc]

theorem scanTag_bracket (rest : List Char) :
    scanTag ('>' :: rest) = ⟨[⟨some .tagEnd, ['>']⟩], rest, false⟩ := by
  rw [scanTag]

/-- A character that neither ends a tag nor begins its end begins a piece of it. -/
theorem scanTag_cons {c : Char} (hend : c ≠ '>') (hslash : c ≠ '/') {ls : List Lexeme}
    {s rest : List Char} (hpiece : tagPiece c s = (ls, rest)) :
    scanTag (c :: s) = (scanTag rest).after ls := by
  rw [scanTag]
  · rw [hpiece]
    rfl
  · intro h
    exact hend h
  · intro _ h _
    exact hslash h

theorem tagPiece_space {c : Char} (hc : isSeparator c = false) (s : List Char) :
    tagPiece ' ' (c :: s) = ([⟨none, [' ']⟩], c :: s) := by
  have hpiece : tagPiece ' ' (c :: s)
      = ([⟨none, ' ' :: (c :: s).takeWhile isSeparator⟩], (c :: s).dropWhile isSeparator) := rfl
  rw [hpiece, List.takeWhile_cons_of_neg (by simp [hc]), List.dropWhile_cons_of_neg (by simp [hc])]

/-- A name ends where an equals sign follows it. -/
theorem tagPiece_attrName {c : Char} {name : List Char} (h : IsAttributeName (c :: name))
    (s : List Char) :
    tagPiece c (name ++ '=' :: s) = ([⟨some .attrName, c :: name⟩], '=' :: s) := by
  have htail : ∀ d ∈ name, isAttrNameChar d = true := fun d hd =>
    h.isAttrNameChar d (List.mem_cons_of_mem c hd)
  have hc := of_isAttrNameChar (h.isAttrNameChar c (List.mem_cons_self ..))
  simp only [List.mem_cons, List.not_mem_nil, not_or] at hc
  rw [tagPiece, List.takeWhile_append_of_pos htail, List.dropWhile_append_of_pos htail,
    List.takeWhile_cons_of_neg (by decide), List.dropWhile_cons_of_neg (by decide),
    List.append_nil]
  simp [hc]

theorem tagPiece_equals (s : List Char) :
    tagPiece '=' ('"' :: s) = ([⟨some .equals, ['=']⟩], '"' :: s) := rfl

/-- A value ends with the quote behind it. -/
theorem tagPiece_quote {v : List Char} (hv : '"' ∉ v) (s : List Char) :
    tagPiece '"' (v ++ '"' :: s) = ([⟨some .attrValue, '"' :: (v ++ ['"'])⟩], s) := by
  have hall : ∀ c ∈ v, decide (c ≠ '"') = true := by
    intro c hc
    exact decide_eq_true fun h => hv (h ▸ hc)
  have hdrop : (v ++ '"' :: s).dropWhile (· ≠ '"') = '"' :: s := by
    rw [List.dropWhile_append_of_pos hall, List.dropWhile_cons_of_neg (by simp)]
  have htake : (v ++ '"' :: s).takeWhile (· ≠ '"') = v := by
    rw [List.takeWhile_append_of_pos hall, List.takeWhile_cons_of_neg (by simp), List.append_nil]
  have hpiece : tagPiece '"' (v ++ '"' :: s) = quotePiece '"' (v ++ '"' :: s) := rfl
  rw [hpiece, quotePiece, hdrop, htake]

/-- An attribute is cut into its lexemes. -/
theorem scanTag_attribute {a : Attribute} (h : IsAttributeName a.name.toList) (rest : List Char) :
    scanTag (a.render ++ rest) = (scanTag rest).after a.lexemes := by
  obtain ⟨c, name, hname⟩ := List.exists_cons_of_ne_nil h.ne_nil
  rw [hname] at h
  have hc := of_isAttrNameChar (h.isAttrNameChar c (List.mem_cons_self ..))
  simp only [List.mem_cons, List.not_mem_nil, not_or] at hc
  have hvalue := tagPiece_quote (Mark.quote_notMem_escape a.value.toList) rest
  rw [Attribute.render, Attribute.lexemes, hname]
  simp only [List.cons_append, List.append_assoc, List.nil_append]
  rw [scanTag_cons (by decide) (by decide) (tagPiece_space (by simp [hc]) _),
    scanTag_cons (by simp [hc]) (by simp [hc]) (tagPiece_attrName h _),
    scanTag_cons (by decide) (by decide) (tagPiece_equals _),
    scanTag_cons (by decide) (by decide) hvalue]
  simp only [TagScan.after_after]
  rfl

/-- The attributes of a tag and its bracket are cut into their lexemes. -/
theorem scanTag_attributes {attributes : List Attribute}
    (h : ∀ a ∈ attributes, IsAttributeName a.name.toList) (rest : List Char) :
    scanTag (attributes.flatMap Attribute.render ++ '>' :: rest)
      = ⟨attributes.flatMap Attribute.lexemes ++ [⟨some .tagEnd, ['>']⟩], rest, false⟩ := by
  induction attributes with
  | nil => exact scanTag_bracket rest
  | cons a attributes ih =>
    rw [List.flatMap_cons, List.append_assoc, scanTag_attribute (h a (List.mem_cons_self ..)),
      ih fun b hb => h b (List.mem_cons_of_mem a hb), TagScan.after, List.flatMap_cons,
      List.append_assoc]

/-! ## Tags -/

/-- The name of a tag ends where a character follows that cannot stand in it. -/
theorem tagConstruct_eq (kind : TokenKind) (opener : List Char) {name : List Char}
    (h : IsElementName name) {c : Char} (hc : isTagNameChar c = false) {s rest : List Char}
    {ls : List Lexeme} (hs : scanTag (c :: s) = ⟨ls, rest, false⟩) :
    tagConstruct kind opener (name ++ c :: s) =
      if kind = .startTag && isRawText (String.ofList name) then
        (⟨some kind, opener ++ name⟩ :: ls ++ (rawBody name rest).1, (rawBody name rest).2)
      else (⟨some kind, opener ++ name⟩ :: ls, rest) := by
  dsimp only [tagConstruct]
  rw [List.takeWhile_append_of_pos h.isTagNameChar, List.dropWhile_append_of_pos h.isTagNameChar,
    List.takeWhile_cons_of_neg (by simp [hc]), List.dropWhile_cons_of_neg (by simp [hc]),
    List.append_nil, hs, h.map_toLower]
  simp

/-- The construct of a start tag, with its body if it has a raw one. -/
theorem construct_renderStart {t : Tag} (ht : t.Canonical) (rest : List Char) :
    construct (t.renderStart ++ rest) =
      if isRawText t.name then
        (t.startLexemes ++ (rawBody t.name.toList rest).1, (rawBody t.name.toList rest).2)
      else (t.startLexemes, rest) := by
  obtain ⟨c, tail, hname, hc⟩ := ht.name.exists_cons
  have hscan := scanTag_attributes ht.attributes rest
  have hstart : construct (t.renderStart ++ rest) = tagConstruct .startTag ['<']
      (t.name.toList ++ (t.attributes.flatMap Attribute.render ++ '>' :: rest)) := by
    rw [Tag.renderStart, hname]
    simp only [List.cons_append, List.append_assoc, List.nil_append]
    exact construct_startTag (isAlpha_of_isLower hc) _
  obtain ⟨d, s, hd, htail⟩ : ∃ d s, isTagNameChar d = false ∧
      t.attributes.flatMap Attribute.render ++ '>' :: rest = d :: s := by
    cases t.attributes with
    | nil => exact ⟨'>', rest, rfl, rfl⟩
    | cons a attributes => exact ⟨' ', _, rfl, rfl⟩
  rw [htail] at hstart hscan
  rw [hstart, tagConstruct_eq .startTag ['<'] ht.name hd hscan, String.ofList_toList]
  rfl

theorem beginsMarkup_renderStart {t : Tag} (ht : t.Canonical) (rest : List Char) :
    beginsMarkup (t.renderStart ++ rest) = true := by
  obtain ⟨c, tail, hname, hc⟩ := ht.name.exists_cons
  rw [Tag.renderStart, hname]
  exact beginsMarkup_of_isAlpha (isAlpha_of_isLower hc) _

theorem beginsMarkup_renderEnd {name : String} (h : IsElementName name.toList) (rest : List Char) :
    beginsMarkup (renderEnd name ++ rest) = true := by
  obtain ⟨c, tail, hname, hc⟩ := h.exists_cons
  rw [renderEnd, hname]
  exact isAlpha_of_isLower hc

/-- The start tag of an element that is no raw-text element. -/
theorem scan_renderStart {t : Tag} (ht : t.Canonical) (hraw : isRawText t.name = false)
    (rest : List Char) : scan (t.renderStart ++ rest) = t.startLexemes ++ scan rest := by
  refine scan_of_construct (beginsMarkup_renderStart ht rest) ?_
  rw [construct_renderStart ht, hraw]
  rfl

theorem scan_renderEnd {name : String} (h : IsElementName name.toList) (rest : List Char) :
    scan (renderEnd name ++ rest) = endLexemes name ++ scan rest := by
  refine scan_of_construct (beginsMarkup_renderEnd h rest) ?_
  have hend : renderEnd name ++ rest = '<' :: '/' :: (name.toList ++ '>' :: rest) := by
    simp [renderEnd]
  rw [hend, construct_endTag, tagConstruct_eq .endTag _ h (c := '>') rfl (scanTag_bracket rest)]
  rfl

/-! ## Raw-text elements -/

/-- A body in which the end tag of its element does not begin, nor does one that runs on into
`rest`. -/
def NeverCloses (name body rest : List Char) : Prop :=
  ∀ u v, body = u ++ v → v ≠ [] → closesElement name (v ++ rest) = false

theorem closesElement_of_ne (name : List Char) {c : Char} (h : c ≠ '<') (s : List Char) :
    closesElement name (c :: s) = false := by
  unfold closesElement
  split <;> simp_all

/-- No end tag begins in a body without brackets. -/
theorem neverCloses_of_notMem (name rest : List Char) {body : List Char} (h : '<' ∉ body) :
    NeverCloses name body rest := by
  intro u v hbody hv
  obtain ⟨c, v, rfl⟩ := List.exists_cons_of_ne_nil hv
  refine closesElement_of_ne name ?_ _
  rintro rfl
  exact h (hbody ▸ List.mem_append_right u (List.mem_cons_self ..))

theorem closesElement_renderEnd {name : String} (rest : List Char) :
    closesElement name.toList (renderEnd name ++ rest) = true := by
  simp [renderEnd, closesElement]

theorem exists_of_closesElement {name s : List Char} (h : closesElement name s = true) :
    ∃ w, s = '<' :: '/' :: w ∧ (w.take name.length).map Char.toLower = name.map Char.toLower := by
  unfold closesElement at h
  split at h
  · exact ⟨_, rfl, of_decide_eq_true h⟩
  · cases h

/-- No end tag begins in a body that does not hold it in any letter case, if the name has no
bracket. -/
theorem neverCloses_of_not_infix {name body : List Char} (hname : IsElementName name)
    (hbracket : '<' ∉ name) (h : ¬ '<' :: '/' :: name <:+: body.map Char.toLower)
    (rest : List Char) : NeverCloses name body ('<' :: rest) := by
  intro u v hbody hv
  rw [Bool.eq_false_iff]
  intro hcloses
  obtain ⟨w, hw, hlower⟩ := exists_of_closesElement hcloses
  rw [hname.map_toLower] at hlower
  match v with
  | [] => exact hv rfl
  | [c] =>
    cases hw
  | c :: d :: v =>
    obtain ⟨rfl, rfl, rfl⟩ : c = '<' ∧ d = '/' ∧ v ++ '<' :: rest = w := by
      simpa [List.cons.injEq] using hw
    rcases Nat.lt_or_ge v.length name.length with hlt | hge
    · -- The name would hold the bracket that follows the body.
      refine hbracket (hlower ▸ List.mem_map.mpr ⟨'<', ?_, rfl⟩)
      rw [List.take_append]
      refine List.mem_append_right _ ?_
      obtain ⟨k, hk⟩ : ∃ k, name.length - v.length = k + 1 := ⟨name.length - v.length - 1, by omega⟩
      rw [hk, List.take_succ_cons]
      exact List.mem_cons_self ..
    · rw [List.take_append_of_le_length hge] at hlower
      have hsplit : v.map Char.toLower = name ++ (v.drop name.length).map Char.toLower := by
        calc v.map Char.toLower
            = (v.take name.length ++ v.drop name.length).map Char.toLower := by
              rw [List.take_append_drop]
          _ = name ++ (v.drop name.length).map Char.toLower := by rw [List.map_append, hlower]
      refine h ⟨u.map Char.toLower, (v.drop name.length).map Char.toLower, ?_⟩
      rw [hbody, List.map_append, List.map_cons, List.map_cons, hsplit, List.append_assoc]
      rfl

/-- **A raw-text element** is cut into its start tag, its body as one lexeme, and its end tag. -/
theorem scan_rawElement {t : Tag} (ht : t.Canonical) (hraw : isRawText t.name = true)
    {body rest : List Char} (hbody : NeverCloses t.name.toList body (renderEnd t.name ++ rest)) :
    scan (t.renderStart ++ (body ++ (renderEnd t.name ++ rest)))
      = t.startLexemes ++ (lexemeOf (some .rawText) body ++ (endLexemes t.name ++ scan rest)) := by
  have hbreak : breakAt (closesElement t.name.toList) (body ++ (renderEnd t.name ++ rest))
      = (body, renderEnd t.name ++ rest) :=
    breakAt_append_eq hbody (.inr (closesElement_renderEnd rest))
  have hconstruct : construct (t.renderStart ++ (body ++ (renderEnd t.name ++ rest)))
      = (t.startLexemes ++ lexemeOf (some .rawText) body, renderEnd t.name ++ rest) := by
    rw [construct_renderStart ht, if_pos hraw, rawBody, hbreak]
  rw [scan_of_construct (beginsMarkup_renderStart ht _) hconstruct, scan_renderEnd ht.name,
    List.append_assoc]

end Stencil.Markup
