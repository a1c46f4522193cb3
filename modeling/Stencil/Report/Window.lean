/-!
# Windows on long lines

A drawing has a fixed number of columns. A line that has room is shown whole, except that most of
a long run of blanks in front of it is dropped. A line that has none is shown through a window on
what is marked, as much as possible of the label behind the mark included. Three dots stand where
a line is cut.

## Main definitions

* `Extent`: what a drawing wants to show of a line
* `Extent.window`: the columns that it shows
* `Window.view`: the line as it is seen through a window
-/

namespace Stencil.Report

/-- What a drawing wants to show of a line, in columns: where its text begins, where the mark
begins and stops, where the label behind the mark stops, and the length of the line. -/
structure Extent where
  blank : Nat
  left : Nat
  right : Nat
  labelStop : Nat
  length : Nat
  deriving DecidableEq, Repr

/-- The columns of a line that are shown, from `left` up to `right`. -/
structure Window where
  left : Nat
  right : Nat
  deriving DecidableEq, Repr

/-- What stands where a line is cut. -/
def dots : List Char := ['.', '.', '.']

/-- The columns to keep free on both sides of what has to be seen. -/
def sideRoom : Nat := 6

/-- The column at which a line begins that has room: zero, unless many blanks stand in front. -/
def Extent.start (e : Extent) : Nat :=
  let blank := e.blank - sideRoom
  if blank > 20 then blank - 16 else 0

/-- The window for a line that has no room. It holds the mark and its label from the text's
beginning on, or with equal room on both sides; else the mark alone, nearer to its left end; and
if not even that fits, exactly the mark and its sides. -/
def Extent.narrow (e : Extent) (columns : Nat) : Window :=
  let blank := e.blank - sideRoom
  let left := e.left - sideRoom
  let right := e.right + sideRoom
  let labelStop := e.labelStop + sideRoom
  if labelStop - blank ≤ columns then ⟨blank, blank + columns⟩
  else if labelStop - left ≤ columns then
    let start := left - (columns - (labelStop - left)) / 2
    ⟨start, start + columns⟩
  else if right - left ≤ columns then
    let start := left - (columns - (right - left)) / 5 * 2
    ⟨start, start + columns⟩
  else ⟨left, right⟩

/-- The columns of a line that are shown where there is room for `columns`. -/
def Extent.window (e : Extent) (columns : Nat) : Window :=
  if e.length - e.start ≤ columns then ⟨e.start, e.length⟩
  else
    let w := e.narrow columns
    -- What is left of the line may fit behind the window's beginning.
    if e.length - w.left ≤ columns then ⟨w.left, e.length⟩ else ⟨w.left, min e.length w.right⟩

/-- A line as it is seen through a window. -/
def Window.view (w : Window) (line : List Char) : List Char :=
  let seen := (line.drop w.left).take (w.right - w.left)
  let seen := if 0 < w.left then dots ++ seen.drop dots.length else seen
  if w.right < line.length then seen.take (seen.length - dots.length) ++ dots else seen

end Stencil.Report
