import Stencil.Markup.Node
import Stencil.Markup.Reference
import Stencil.Markup.Token

/-!
# Events

Tokens come in groups: a start tag with its attributes, an end tag with whatever stands in it, or
a single token. Each group is one event for the builder of the tree.

## Main definitions

* `Event`: a leaf, a start tag or an end tag
* `TagItem`, `itemsOf`: the attributes of a start tag, and what is none
* `firstOfEachName`: attributes without later ones of the same name
* `eventsOf`: the events of a sequence of tokens
-/

namespace Stencil.Markup

open Stencil.Text

/-- How a start tag ends: with a bracket, with a slash and a bracket, or not at all. -/
inductive Ending where
  | bracket
  | slash
  | missing
  deriving DecidableEq, Repr

/-- A start tag, what in it is no attribute, how it ends, and the text of a raw-text element. -/
structure StartTag where
  tag : Tag
  strays : List Token
  ending : Ending
  body : Option Token
  deriving DecidableEq, Repr

/-- An end tag and whether it is ended by a bracket. -/
structure EndTag where
  name : String
  span : Span
  terminated : Bool
  deriving DecidableEq, Repr

/-- What a group of tokens means. -/
inductive Event where
  | text (text : String) (span : Span)
  | comment (text : String) (span : Span) (terminated : Bool)
  | other (kind : OtherKind) (text : String) (span : Span)
  | start (tag : StartTag)
  | stop (tag : EndTag)
  deriving DecidableEq, Repr

/-! ## Tags -/

/-- What may stand between the name and the end of a tag. -/
def TokenKind.isInner : TokenKind → Bool
  | attrName | equals | attrValue | garbage => true
  | _ => false

/-- What is skipped behind the name of an end tag. -/
def TokenKind.isSkipped (k : TokenKind) : Bool :=
  k.isInner || k = .tagSelfClose

/-- The least span that holds a span and several tokens. -/
def coverAll (span : Span) (tokens : List Token) : Span :=
  tokens.foldl (fun s t => s.cover t.span) span

/-- The text between a pair of equal quotes, or a text without such a pair as it stands. -/
def unquote : List Char → List Char
  | '"' :: rest => if rest.getLast? = some '"' then rest.dropLast else '"' :: rest
  | '\x27' :: rest => if rest.getLast? = some '\x27' then rest.dropLast else '\x27' :: rest
  | s => s

/-- The value that an attribute writes. -/
def valueOf (raw : String) : String :=
  String.ofList (Reference.decodeChars (unquote raw.toList))

/-- Part of a start tag: an attribute, or a token that belongs to none. -/
inductive TagItem where
  | attribute (a : Attribute)
  | stray (t : Token)
  deriving DecidableEq, Repr

/-- The parts of a start tag: a name with an optional sign and value, or a stray token. -/
def itemsOf : List Token → List TagItem
  | [] => []
  | t :: rest =>
    if t.kind ≠ .attrName then .stray t :: itemsOf rest
    else
      match rest with
      | [] => [.attribute ⟨lowercase t.text, "", t.span⟩]
      | e :: rest =>
        if e.kind ≠ .equals then
          .attribute ⟨lowercase t.text, "", t.span⟩ :: itemsOf (e :: rest)
        else
          match rest with
          | [] => [.attribute ⟨lowercase t.text, "", t.span.cover e.span⟩]
          | v :: rest =>
            if v.kind ≠ .attrValue then
              .attribute ⟨lowercase t.text, "", t.span.cover e.span⟩ :: itemsOf (v :: rest)
            else
              .attribute ⟨lowercase t.text, valueOf v.text, (t.span.cover e.span).cover v.span⟩
                :: itemsOf rest
termination_by tokens => tokens.length

/-- The attributes among the parts of a start tag. -/
def attributesOf (items : List TagItem) : List Attribute :=
  items.filterMap fun
    | .attribute a => some a
    | .stray _ => none

/-- The stray tokens among the parts of a start tag. -/
def straysOf (items : List TagItem) : List Token :=
  items.filterMap fun
    | .attribute _ => none
    | .stray t => some t

/-- Attributes without those whose name an earlier one has. -/
def firstOfEachName : List Attribute → List Attribute
  | [] => []
  | a :: rest => a :: (firstOfEachName rest).filter (·.name ≠ a.name)

/-- How a start tag ends, the token that ends it, and the tokens after it. -/
def endingOf : List Token → Ending × List Token × List Token
  | t :: rest =>
    if t.kind = .tagEnd then (.bracket, [t], rest)
    else if t.kind = .tagSelfClose then (.slash, [t], rest)
    else (.missing, [], t :: rest)
  | [] => (.missing, [], [])

/-- The text of a raw-text element whose start tag was just ended, and the tokens after it. -/
def bodyOf (name : String) (ending : Ending) : List Token → Option Token × List Token
  | t :: rest =>
    if ending = .bracket && isRawText name && t.kind = .rawText then (some t, rest)
    else (none, t :: rest)
  | [] => (none, [])

/-- The start tag whose first token is `t`, and the tokens after it. -/
def startTagOf (t : Token) (rest : List Token) : StartTag × List Token :=
  let name := lowercase (String.ofList (t.text.toList.drop 1))
  let inner := rest.takeWhile (·.kind.isInner)
  let ending := endingOf (rest.dropWhile (·.kind.isInner))
  let body := bodyOf name ending.1 ending.2.2
  let items := itemsOf inner
  ({ tag :=
      { name
        attributes := firstOfEachName (attributesOf items)
        span := coverAll t.span (inner ++ ending.2.1) }
     strays := straysOf items
     ending := ending.1
     body := body.1 }, body.2)

/-- The end tag whose first token is `t`, and the tokens after it. -/
def endTagOf (t : Token) (rest : List Token) : EndTag × List Token :=
  let name := lowercase (String.ofList (t.text.toList.drop 2))
  let span := coverAll t.span (rest.takeWhile (·.kind.isSkipped))
  match rest.dropWhile (·.kind.isSkipped) with
  | close :: after =>
    if close.kind = .tagEnd then (⟨name, span.cover close.span, true⟩, after)
    else (⟨name, span, false⟩, close :: after)
  | [] => (⟨name, span, false⟩, [])

theorem length_dropWhile_le {α : Type} (p : α → Bool) (l : List α) :
    (l.dropWhile p).length ≤ l.length :=
  (List.dropWhile_suffix p).length_le

theorem endingOf_length (l : List Token) : (endingOf l).2.2.length ≤ l.length := by
  unfold endingOf
  grind

theorem bodyOf_length (name : String) (e : Ending) (l : List Token) :
    (bodyOf name e l).2.length ≤ l.length := by
  unfold bodyOf
  grind

theorem startTagOf_length (t : Token) (rest : List Token) :
    (startTagOf t rest).2.length ≤ rest.length := by
  dsimp only [startTagOf]
  exact Nat.le_trans (bodyOf_length _ _ _)
    (Nat.le_trans (endingOf_length _) (length_dropWhile_le _ _))

theorem endTagOf_length (t : Token) (rest : List Token) :
    (endTagOf t rest).2.length ≤ rest.length := by
  have h := length_dropWhile_le (fun t : Token => t.kind.isSkipped) rest
  dsimp only [endTagOf]
  split
  · rename_i heq
    rw [heq, List.length_cons] at h
    split
    · exact Nat.le_of_succ_le h
    · exact h
  · exact Nat.zero_le _

/-! ## Leaves -/

/-- A comment's text and whether it has a terminator. -/
def commentBody (raw : List Char) : List Char × Bool :=
  let inner := raw.drop 4
  if ['-', '-', '>'].isSuffixOf inner then (inner.take (inner.length - 3), true)
  else (inner, false)

/-- The text of a construct between two markers, the second of which may be missing. -/
def between (opener closer raw : List Char) : List Char :=
  let inner := raw.drop opener.length
  if closer.isSuffixOf inner then inner.take (inner.length - closer.length) else inner

/-- The event of a single token, if it has one of its own. -/
def leafOf (t : Token) : Option Event :=
  match t.kind with
  | .text => some (.text (Reference.decode t.text) t.span)
  | .rawText => some (.text t.text t.span)
  | .comment =>
    let body := commentBody t.text.toList
    some (.comment (String.ofList body.1) t.span body.2)
  | .cdata =>
    some (.other .cdata (String.ofList (between
      ['<', '!', '[', 'C', 'D', 'A', 'T', 'A', '['] [']', ']', '>'] t.text.toList)) t.span)
  | .doctype =>
    some (.other .doctype (String.ofList (between ['<', '!'] ['>'] t.text.toList)) t.span)
  | .instruction =>
    some (.other .instruction (String.ofList (between ['<', '?'] ['>'] t.text.toList)) t.span)
  | _ => none

/-- The events of a sequence of tokens. Tokens that belong to no tag mean nothing. -/
def eventsOf : List Token → List Event
  | [] => []
  | t :: rest =>
    if t.kind = .startTag then .start (startTagOf t rest).1 :: eventsOf (startTagOf t rest).2
    else if t.kind = .endTag then .stop (endTagOf t rest).1 :: eventsOf (endTagOf t rest).2
    else
      match leafOf t with
      | some e => e :: eventsOf rest
      | none => eventsOf rest
termination_by tokens => tokens.length
decreasing_by
  · exact Nat.lt_succ_of_le (startTagOf_length t rest)
  · exact Nat.lt_succ_of_le (endTagOf_length t rest)
  · exact Nat.lt_succ_self _
  · exact Nat.lt_succ_self _

end Stencil.Markup
