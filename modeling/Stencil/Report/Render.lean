import Stencil.Report.Drawing

/-!
# Rendering diagnostics

Diagnostics are printed in one of three forms. Without the source each is one line with byte
offsets. With the source they are compact, one line with a position and one for each note, or
drawn, with the line of source and marks under the place. A summary counts them.

## Main definitions

* `Options`: what is known and what is wanted
* `compactText`: a diagnostic on a line of its own
* `summary`: the counts in words
* `render`: a list of diagnostics
-/

namespace Stencil.Report

open Stencil.Diagnostic

/-- What is known about the source, and how to print. -/
structure Options where
  source : Option String := none
  path : Option String := none
  colored : Bool := false
  compact : Bool := false
  summary : Bool := false

/-! ## Compact form -/

/-- A position as line and column. -/
def positionText (p : Position) : String :=
  s!"{p.line}:{p.column}"

/-- A remark about another place. -/
def noteText (source : String) (n : Note) : String :=
  s!"\n  note: {n.message} ({positionText (positionOf source n.span.start)})"

/-- A diagnostic in compact form. -/
def compactText (source : String) (path : Option String) (d : Diagnostic) : String :=
  let place := positionText (positionOf source d.span.start)
  let front :=
    match path with
    | none => ""
    | some path => path ++ ":"
  let help :=
    match d.fix with
    | none => ""
    | some fix => "\n  help: " ++ fix.description
  s!"{front}{place}: {d.severity.name}: {d.message}"
    ++ String.join (d.related.map (noteText source)) ++ help

/-! ## Lists of diagnostics -/

/-- A number of things, in words. -/
def plural (n : Nat) (word : String) : String :=
  if n = 1 then s!"1 {word}" else s!"{n} {word}s"

/-- The numbers of errors and warnings, without a number that is zero. -/
def summary (ds : List Diagnostic) : String :=
  match errorCount ds, warningCount ds with
  | 0, w => plural w "warning"
  | e, 0 => plural e "error"
  | e, w => plural e "error" ++ ", " ++ plural w "warning"

/-- A diagnostic in the form that the options ask for. -/
def renderOne (o : Options) (d : Diagnostic) : String :=
  match o.source with
  | none => d.plainText
  | some source =>
    if o.compact then compactText source o.path d else drawnText source o.path o.colored d

/-- A list of diagnostics. -/
def render (o : Options) (ds : List Diagnostic) : String :=
  "\n".intercalate (ds.map (renderOne o))
    ++ (if o.summary && !ds.isEmpty then "\n" ++ summary ds else "")

end Stencil.Report
