import Stencil.Diagnostic.Basic
import Stencil.Diagnostic.Position
import Stencil.Report.Style
import Stencil.Report.Window
import Stencil.Text.Blank
import Stencil.Text.Utf8

/-!
# Drawing diagnostics

A drawing shows a diagnostic beside the source: a title, the place, the line of source with marks
under the place and the message behind them, and for a fix the line before and after it. Long
lines are shown through a window, but for a fix they are shown whole.

## Main definitions

* `Mark`, `markOf`: the line that a span begins in, cut around the span
* `markRow`, `markLines`, `fixLines`: the lines of a drawing behind its title
* `drawnText`: a diagnostic as a drawing
-/

namespace Stencil.Report

open Stencil.Diagnostic Stencil.Text

/-- Copies of a character. -/
def times (n : Nat) (c : Char) : String :=
  String.ofList (List.replicate n c)

/-- Several lines as one text, those after the first indented. -/
def indentLines (width : Nat) (s : String) : String :=
  ("\n" ++ times width ' ').intercalate (s.splitOn "\n")

/-- A severity as a drawing shows it. -/
def severityText (colored : Bool) (s : Severity) : String :=
  if colored then
    match s with
    | .error => "\x1b[1m\x1b[91m" ++ s.name ++ "\x1b[0m"
    | .warning => "\x1b[1m\x1b[33m" ++ s.name ++ "\x1b[0m"
  else s.name

/-- A line of source with its number, cut around what is marked. -/
structure Mark where
  position : Position
  before : List Char
  marked : List Char
  behind : List Char

namespace Mark

/-- The line. -/
def line (m : Mark) : List Char :=
  m.before ++ m.marked ++ m.behind

/-- The line without what is marked. -/
def rest (m : Mark) : List Char :=
  m.before ++ m.behind

/-- The number of columns under which marks stand. Nothing is marked by one. -/
def width (m : Mark) : Nat :=
  max 1 (shownChars m.marked).length

/-- The number of the line. -/
def number (m : Mark) : String :=
  Nat.repr m.position.line

/-- Blanks as wide as the number of the line. -/
def margin (m : Mark) : String :=
  times m.number.length ' '

/-- What the drawing wants to show of the line, if a label stands behind the marks. -/
def extent (m : Mark) (label : String) : Extent :=
  let left := (shownChars m.before).length
  { blank := if m.line.all isBlank then 0 else (shownChars (m.line.takeWhile isBlank)).length
    left
    right := left + m.width
    labelStop := left + m.width + 1 + (shownChars label.toList).length
    length := (shownChars m.line).length }

end Mark

/-- The line in which a span begins, cut around it. A span that goes on behind the line is cut at
its end. -/
def markOf (source : String) (span : Span) : Mark :=
  let position := positionOf source span.start
  let line := ((source.splitOn "\n")[position.line - 1]?.getD "").toList
  let cut := Utf8.cut (span.stop - span.start) (line.drop (position.column - 1))
  { position, before := line.take (position.column - 1), marked := cut.1, behind := cut.2 }

/-- The number of columns of a drawing, the number of the line and its bar included. -/
def drawingWidth : Nat := 140

/-- The row of marks under a line that is shown from column `left` on, and the label behind them.
Marks to the left of that column run into the bar and the margin. -/
def markRow (m : Mark) (left : Nat) (label : String) : String :=
  let bar := m.margin ++ " | "
  let start := bar.length + (shownChars m.before).length - left
  let stop := bar.length + (shownChars m.before).length + m.width - left
  String.ofList (bar.toList.take start) ++ times (start - bar.length) ' '
    ++ times (stop - start) '^' ++ " " ++ label

/-- The lines that mark the source. The label stands as it is, even if it goes on in lines of its
own. -/
def markLines (path : Option String) (m : Mark) (label : String) : List String :=
  let window := (m.extent label).window (drawingWidth - (m.number.length + 3))
  (match path with
    | none => []
    | some path => [s!"{m.margin}--> {path}:{m.position.line}:{m.position.column}"])
    ++ [m.margin ++ " |", m.number ++ " | " ++ String.ofList (window.view (shownChars m.line)),
      markRow m window.left label]

/-- The lines that show a fix: the line of source before it, and after it unless only blanks are
left. -/
def fixLines (m : Mark) (fix : Fix) : List String :=
  [m.margin ++ " |", "help: " ++ indentLines 6 fix.description, m.margin ++ " |",
    m.number ++ " - " ++ String.ofList (shownChars m.line)]
    ++ (if m.rest.all isBlank then [] else [m.number ++ " + " ++ String.ofList (shownChars m.rest)])
    ++ [m.margin ++ " |"]

/-- A diagnostic drawn beside the source. -/
def drawnText (source : String) (path : Option String) (colored : Bool) (d : Diagnostic) :
    String :=
  let mark := markOf source d.span
  let title := severityText colored d.severity ++ ": "
    ++ indentLines (d.severity.name.length + 2) (shown d.message)
  let fix :=
    match d.fix with
    | none => []
    | some fix => fixLines mark fix
  "\n".intercalate (title :: markLines path mark d.message ++ fix)

end Stencil.Report
