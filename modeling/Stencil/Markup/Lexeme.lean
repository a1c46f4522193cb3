import Stencil.Markup.Names

/-!
# Lexemes

A source is cut into lexemes, one behind the other, without loss. Between tags there is text, and
constructs that begin with `<`; inside a tag there are names, values and separators. What begins a
construct is decided on the few characters after `<`, so that a run of text is as long as it can
be. A construct that is cut off by the end of the source reaches to that end.

## Main definitions

* `TokenKind`, `Lexeme`: a piece of source and what it is
* `beginsMarkup`: whether a construct begins here
* `tagPiece`, `scanTag`: inside a tag
* `construct`, `scan`: between tags

## Main results

* `flat_construct`, `flat_scan`: the lexemes concatenate to the source
-/

namespace Stencil.Markup

open Stencil.Text

/-- What a piece of source is. -/
inductive TokenKind where
  /-- Characters between tags. -/
  | text
  /-- A comment, with its terminator if it has one. -/
  | comment
  /-- A character data section. -/
  | cdata
  /-- A document type or another declaration. -/
  | doctype
  /-- A processing instruction. -/
  | instruction
  /-- The bracket and the name of a start tag. -/
  | startTag
  /-- The bracket, the slash and the name of an end tag. -/
  | endTag
  /-- The name of an attribute. -/
  | attrName
  /-- The sign between name and value. -/
  | equals
  /-- The value of an attribute, with its quotes if it has them. -/
  | attrValue
  /-- The bracket that ends a tag. -/
  | tagEnd
  /-- The slash and bracket that end a tag. -/
  | tagSelfClose
  /-- The body of a raw-text element. -/
  | rawText
  /-- Characters that have no place inside a tag. -/
  | garbage
  deriving DecidableEq, Repr

/-- A piece of source. It has no kind if it only separates what stands inside a tag. -/
structure Lexeme where
  kind : Option TokenKind
  text : List Char
  deriving DecidableEq, Repr

/-- The source of several lexemes. -/
def flat (l : List Lexeme) : List Char :=
  l.flatMap Lexeme.text

@[simp] theorem flat_nil : flat [] = [] := rfl

@[simp] theorem flat_cons (x : Lexeme) (l : List Lexeme) : flat (x :: l) = x.text ++ flat l := by
  simp [flat]

@[simp] theorem flat_append (l m : List Lexeme) : flat (l ++ m) = flat l ++ flat m := by
  simp [flat]

/-- A lexeme, unless it is empty. -/
def lexemeOf (kind : Option TokenKind) (text : List Char) : List Lexeme :=
  if text.isEmpty then [] else [⟨kind, text⟩]

@[simp] theorem flat_lexemeOf (kind : Option TokenKind) (text : List Char) :
    flat (lexemeOf kind text) = text := by
  cases text <;> simp [lexemeOf]

/-! ## Inside a tag -/

/-- Whether a character may stand in the name of an attribute. -/
def isAttrNameChar (c : Char) : Bool :=
  !(isSeparator c || c = '"' || c = '\x27' || c = '<' || c = '>' || c = '/' || c = '=')

/-- Whether a character may stand in a value without quotes. -/
def isBareValueChar (c : Char) : Bool :=
  !(isSeparator c || c = '>')

/-- Whether a text goes on with a value without quotes. -/
def beginsBareValue : List Char → Bool
  | [] => false
  | c :: _ => !(c = '"' || c = '\x27' || c = '>')

/-- An equals sign, the text after it being `rest`. A value without quotes is read at once, since
it may hold characters that mean something elsewhere in a tag. -/
def equalsPiece (rest : List Char) : List Lexeme × List Char :=
  let value := rest.dropWhile isSeparator
  if beginsBareValue value then
    (⟨some .equals, ['=']⟩ :: (lexemeOf none (rest.takeWhile isSeparator)
      ++ [⟨some .attrValue, value.takeWhile isBareValueChar⟩]), value.dropWhile isBareValueChar)
  else ([⟨some .equals, ['=']⟩], rest)

/-- Whether a text begins with a quote that is not closed. -/
def beginsOpenQuote : List Char → Bool
  | c :: rest => (c = '"' || c = '\x27') && !rest.contains c
  | [] => false

/-- A quote, the text after it being `rest`. One that is not closed spoils all that follows. -/
def quotePiece (quote : Char) (rest : List Char) : List Lexeme × List Char :=
  match rest.dropWhile (· ≠ quote) with
  | [] => ([⟨some .garbage, quote :: rest⟩], [])
  | close :: after => ([⟨some .attrValue, quote :: (rest.takeWhile (· ≠ quote) ++ [close])⟩], after)

/-- Brackets inside a tag, the text after the first being `rest`. A quote that is not closed joins
them. -/
def bracketPiece (rest : List Char) : List Lexeme × List Char :=
  let after := rest.dropWhile (· = '<')
  if beginsOpenQuote after then ([⟨some .garbage, '<' :: rest⟩], [])
  else ([⟨some .garbage, '<' :: rest.takeWhile (· = '<')⟩], after)

/-- What a character other than the end of a tag begins inside it. -/
def tagPiece (c : Char) (rest : List Char) : List Lexeme × List Char :=
  if isSeparator c then
    ([⟨none, c :: rest.takeWhile isSeparator⟩], rest.dropWhile isSeparator)
  else if c = '=' then equalsPiece rest
  else if c = '"' || c = '\x27' then quotePiece c rest
  else if c = '<' then bracketPiece rest
  else if c = '/' then ([⟨none, ['/']⟩], rest)
  else
    ([⟨some .attrName, c :: rest.takeWhile isAttrNameChar⟩], rest.dropWhile isAttrNameChar)

theorem flat_equalsPiece (rest : List Char) :
    flat (equalsPiece rest).1 ++ (equalsPiece rest).2 = '=' :: rest := by
  dsimp only [equalsPiece]
  split
  · simp only [flat_cons, flat_append, flat_lexemeOf, flat_nil, List.append_assoc,
      List.append_nil, List.takeWhile_append_dropWhile, List.cons_append, List.nil_append]
  · rfl

theorem flat_quotePiece (q : Char) (rest : List Char) :
    flat (quotePiece q rest).1 ++ (quotePiece q rest).2 = q :: rest := by
  unfold quotePiece
  split
  · simp
  · rename_i d after h
    have := List.takeWhile_append_dropWhile (l := rest) (p := (· ≠ q))
    rw [h] at this
    simpa using this

theorem flat_bracketPiece (rest : List Char) :
    flat (bracketPiece rest).1 ++ (bracketPiece rest).2 = '<' :: rest := by
  dsimp only [bracketPiece]
  split <;> simp

/-- A piece inside a tag loses nothing. -/
theorem flat_tagPiece (c : Char) (rest : List Char) :
    flat (tagPiece c rest).1 ++ (tagPiece c rest).2 = c :: rest := by
  unfold tagPiece
  split
  · simp
  split
  · rename_i h
    rw [h, flat_equalsPiece]
  split
  · exact flat_quotePiece c rest
  split
  · rename_i h
    rw [h, flat_bracketPiece]
  split
  · rename_i h
    simp [h]
  · simp

/-- A piece inside a tag is not empty. -/
theorem flat_tagPiece_ne_nil (c : Char) (rest : List Char) : flat (tagPiece c rest).1 ≠ [] := by
  unfold tagPiece
  split
  · simp
  split
  · dsimp only [equalsPiece]
    split <;> simp
  split
  · unfold quotePiece
    split <;> simp
  split
  · dsimp only [bracketPiece]
    split <;> simp
  split <;> simp

theorem tagPiece_length (c : Char) (rest : List Char) :
    (tagPiece c rest).2.length < (c :: rest).length := by
  have h := congrArg List.length (flat_tagPiece c rest)
  have hp := List.length_pos_iff.mpr (flat_tagPiece_ne_nil c rest)
  rw [List.length_append] at h
  omega

/-- A tag behind its name: its lexemes, what follows it, and whether a slash ended it. -/
structure TagScan where
  lexemes : List Lexeme
  rest : List Char
  selfClosed : Bool

/-- Cuts a tag behind its name, up to the bracket that ends it or the end of the source. -/
def scanTag (s : List Char) : TagScan :=
  match s with
  | [] => ⟨[], [], false⟩
  | '>' :: rest => ⟨[⟨some .tagEnd, ['>']⟩], rest, false⟩
  | '/' :: '>' :: rest => ⟨[⟨some .tagSelfClose, ['/', '>']⟩], rest, true⟩
  | c :: rest =>
    let piece := tagPiece c rest
    let more := scanTag piece.2
    ⟨piece.1 ++ more.lexemes, more.rest, more.selfClosed⟩
termination_by s.length
decreasing_by exact tagPiece_length c rest

/-- A tag loses nothing. -/
theorem flat_scanTag (s : List Char) : flat (scanTag s).lexemes ++ (scanTag s).rest = s := by
  fun_induction scanTag s with
  | case1 => rfl
  | case2 => simp
  | case3 => simp
  | case4 c rest _ _ piece more ih =>
    rw [flat_append, List.append_assoc, ih]
    exact flat_tagPiece c rest

/-! ## Between tags -/

/-- Whether a construct begins at the front of a text. Every other `<` is text. -/
def beginsMarkup : List Char → Bool
  | '<' :: '!' :: _ => true
  | '<' :: '?' :: _ => true
  | '<' :: '/' :: c :: _ => c.isAlpha
  | '<' :: c :: _ => c.isAlpha
  | _ => false

/-- Whether the end tag of an element begins at the front of a text. Letter case is ignored, and
whatever follows the name. -/
def closesElement (name : List Char) : List Char → Bool
  | '<' :: '/' :: rest => (rest.take name.length).map Char.toLower = name.map Char.toLower
  | _ => false

/-- A construct between two markers, cut off at the end of the source if its end is missing. -/
def delimited (kind : TokenKind) (opener closer s : List Char) : List Lexeme × List Char :=
  let body := breakPast closer (s.drop opener.length)
  ([⟨some kind, s.take opener.length ++ body.1⟩], body.2)

/-- Whether a character may stand in the name of an element. -/
def isTagNameChar (c : Char) : Bool :=
  !(isSeparator c || c = '/' || c = '>')

/-- The body of a raw-text element, up to its end tag or the end of the source. -/
def rawBody (name s : List Char) : List Lexeme × List Char :=
  let body := breakAt (closesElement name) s
  (lexemeOf (some .rawText) body.1, body.2)

/-- A tag whose brackets are `opener`, the text after them being `s`. The start tag of a raw-text
element brings its body along. -/
def tagConstruct (kind : TokenKind) (opener s : List Char) : List Lexeme × List Char :=
  let name := s.takeWhile isTagNameChar
  -- The name goes on up to a separator, so it may hold quotes, brackets and equals signs.
  let tag := scanTag (s.dropWhile isTagNameChar)
  let head := ⟨some kind, opener ++ name⟩ :: tag.lexemes
  if kind = .startTag && !tag.selfClosed && isRawText (String.ofList (name.map Char.toLower)) then
    let body := rawBody name tag.rest
    (head ++ body.1, body.2)
  else (head, tag.rest)

/-- The construct at the front of a text where markup begins. -/
def construct (s : List Char) : List Lexeme × List Char :=
  if ['<', '!', '-', '-'].isPrefixOf s then
    delimited .comment ['<', '!', '-', '-'] ['-', '-', '>'] s
  else if ['<', '!', '[', 'C', 'D', 'A', 'T', 'A', '['].isPrefixOf s then
    delimited .cdata ['<', '!', '[', 'C', 'D', 'A', 'T', 'A', '['] [']', ']', '>'] s
  else if ['<', '!'].isPrefixOf s then delimited .doctype ['<', '!'] ['>'] s
  else if ['<', '?'].isPrefixOf s then delimited .instruction ['<', '?'] ['>'] s
  else if ['<', '/'].isPrefixOf s then tagConstruct .endTag (s.take 2) (s.drop 2)
  else tagConstruct .startTag (s.take 1) (s.drop 1)

theorem flat_delimited (kind : TokenKind) (opener closer s : List Char) :
    flat (delimited kind opener closer s).1 ++ (delimited kind opener closer s).2 = s := by
  simp only [delimited, flat_cons, flat_nil, List.append_nil, List.append_assoc,
    breakPast_append, List.take_append_drop]

theorem flat_rawBody (name s : List Char) : flat (rawBody name s).1 ++ (rawBody name s).2 = s := by
  simp only [rawBody, flat_lexemeOf, breakAt_append]

theorem flat_tagConstruct (kind : TokenKind) (opener s : List Char) :
    flat (tagConstruct kind opener s).1 ++ (tagConstruct kind opener s).2 = opener ++ s := by
  dsimp only [tagConstruct]
  have h := flat_scanTag (s.dropWhile isTagNameChar)
  split
  · simp only [flat_append, flat_cons, List.append_assoc, flat_rawBody, h,
      List.takeWhile_append_dropWhile]
  · simp only [flat_cons, List.append_assoc, h, List.takeWhile_append_dropWhile]

/-- **A construct loses nothing.** -/
theorem flat_construct (s : List Char) : flat (construct s).1 ++ (construct s).2 = s := by
  unfold construct
  iterate 4 (split; · exact flat_delimited _ _ _ s)
  split <;> simp only [flat_tagConstruct, List.take_append_drop]

theorem flat_tagConstruct_ne_nil (kind : TokenKind) {opener s : List Char} (h : opener ≠ []) :
    flat (tagConstruct kind opener s).1 ≠ [] := by
  dsimp only [tagConstruct]
  split <;> simp [h]

/-- A construct is not empty. -/
theorem flat_construct_ne_nil {s : List Char} (h : s ≠ []) : flat (construct s).1 ≠ [] := by
  unfold construct
  iterate 4 (split; · simp [delimited, h])
  split <;> exact flat_tagConstruct_ne_nil _ (by simp [h])

theorem construct_length {s : List Char} (h : s ≠ []) : (construct s).2.length < s.length := by
  have hf := congrArg List.length (flat_construct s)
  have hp := List.length_pos_iff.mpr (flat_construct_ne_nil h)
  rw [List.length_append] at hf
  omega

/-- Cuts a source into lexemes. -/
def scan (s : List Char) : List Lexeme :=
  match s with
  | [] => []
  | c :: rest =>
    if beginsMarkup (c :: rest) then
      (construct (c :: rest)).1 ++ scan (construct (c :: rest)).2
    else
      let run := breakAt beginsMarkup rest
      ⟨some .text, c :: run.1⟩ :: scan run.2
termination_by s.length
decreasing_by
  · exact construct_length (by simp)
  · exact Nat.lt_succ_of_le (breakAt_length_le _ _)

/-- **The lexemes concatenate to the source.** -/
theorem flat_scan (s : List Char) : flat (scan s) = s := by
  fun_induction scan s with
  | case1 => rfl
  | case2 c rest _ ih => rw [flat_append, ih, flat_construct]
  | case3 c rest _ run ih =>
    rw [flat_cons, ih, List.cons_append]
    exact congrArg (c :: ·) (breakAt_append _ rest)

end Stencil.Markup
