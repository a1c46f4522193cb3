import Stencil.Diagnostic.Basic
import Stencil.Markup.Event

/-!
# Building the forest

The builder keeps the elements that are open. A start tag opens one, an end tag closes the nearest
one of its name and with it all that were opened later, and the end of the source closes the rest.
Nothing is refused: what does not fit is mended and reported.

## Main definitions

* `Builder`, `Builder.step`: the open elements, and what an event does to them
* `Builder.finish`: closing what is left open
* `Document`, `parse`: the forest of a source, and what was mended
-/

namespace Stencil.Markup

open Stencil.Text

/-- An element that is open: its tag, and its children so far, latest first. -/
structure Frame where
  tag : Tag
  children : List Node
  deriving Repr

/-- The top-level nodes so far, latest first; the open elements, innermost first; and the reports
so far, latest first. -/
structure Builder where
  roots : List Node := []
  stack : List Frame := []
  reports : List Diagnostic := []
  deriving Repr

namespace Builder

/-- Adds a node to the innermost open element, or to the top level. -/
def append (b : Builder) (n : Node) : Builder :=
  match b.stack with
  | [] => { b with roots := n :: b.roots }
  | f :: rest => { b with stack := { f with children := n :: f.children } :: rest }

/-- Adds a report. -/
def report (b : Builder) (d : Diagnostic) : Builder :=
  { b with reports := d :: b.reports }

/-- The element of a frame that no end tag closes. It reaches to the end of its last child. -/
def Frame.implicit (f : Frame) : Node :=
  let span :=
    match f.children with
    | [] => f.tag.span
    | last :: _ => f.tag.span.cover last.span
  .element { f.tag with span } f.children.reverse

/-- The element of a frame that an end tag closes, which reaches to the end of that tag. -/
def Frame.closedBy (f : Frame) (t : EndTag) : Node :=
  .element { f.tag with span := ⟨f.tag.span.start, t.span.stop⟩ } f.children.reverse

/-- Closes the innermost element without an end tag of its own and reports it. -/
def popImplicit (b : Builder) (related : List Diagnostic.Note) : Builder :=
  match b.stack with
  | [] => b
  | f :: rest =>
    ({ b with stack := rest }.report
      { Diagnostic.about .unclosedElement f.tag.span f.tag.name with related }).append
        (Frame.implicit f)

/-- Closes the `n` innermost elements without end tags of their own. -/
def popMany (b : Builder) (related : List Diagnostic.Note) : Nat → Builder
  | 0 => b
  | n + 1 => (b.popImplicit related).popMany related n

/-- The report of an end tag that closes nothing. -/
def strayReport (t : EndTag) : Diagnostic :=
  { Diagnostic.about .strayCloseTag t.span t.name with
    fix := some ⟨"remove the close tag", ""⟩ }

/-- What a start tag does. One that is cut off, ends with a slash or is void has no children. -/
def start (b : Builder) (s : StartTag) : Builder :=
  let b := s.strays.foldl
    (fun b t => b.report (.about .malformedAttribute t.span t.text)) b
  if s.ending = .missing then
    (b.report { kind := .unterminatedTag, span := s.tag.span }).append (.element s.tag [])
  else if s.ending = .slash || isVoid s.tag.name then b.append (.element s.tag [])
  else
    let children :=
      match s.body with
      | none => []
      | some t =>
        [.text (if isEscapable s.tag.name then Reference.decode t.text else t.text) t.span]
    { b with stack := ⟨s.tag, children⟩ :: b.stack }

/-- What an end tag does: it closes the nearest open element of its name, and all opened later. -/
def stop (b : Builder) (t : EndTag) : Builder :=
  let b := if t.terminated then b else b.report { kind := .unterminatedTag, span := t.span }
  match b.stack.findIdx? (·.tag.name = t.name) with
  | none => b.report (strayReport t)
  | some n =>
    -- What was opened after it is closed by the same tag, innermost first.
    let b := b.popMany [⟨"closed by `</" ++ t.name ++ ">`", t.span⟩] n
    match b.stack with
    | [] => b
    | f :: rest => { b with stack := rest }.append (Frame.closedBy f t)

/-- What an event does. -/
def step (b : Builder) : Event → Builder
  | .text s span => b.append (.text s span)
  | .comment s span terminated =>
    (if terminated then b else b.report { kind := .unterminatedComment, span }).append
      (.comment s span)
  | .other kind s span => b.append (.other kind s span)
  | .start s => b.start s
  | .stop t => b.stop t

/-- Closes all elements that are still open. -/
def finish (b : Builder) : Builder :=
  b.popMany [] b.stack.length

end Builder

/-- The forest of a source, and the reports about it. -/
structure Document where
  nodes : List Node
  diagnostics : List Diagnostic
  deriving Repr

/-- The document that events build. -/
def Document.ofEvents (events : List Event) : Document :=
  let b := (events.foldl Builder.step {}).finish
  ⟨b.roots.reverse, b.reports.reverse⟩

/-- The document of a source. -/
def parse (source : String) : Document :=
  .ofEvents (eventsOf (tokenize source))

end Stencil.Markup
