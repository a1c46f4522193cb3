import Stencil.Diagnostic.Basic

/-!
# One diagnostic for each place

Several diagnostics may begin at one place. A reader wants only the one of the highest priority,
the first of them if there are several, and wants them in the order of the source.

## Main definitions

* `keep`: the diagnostics kept so far, and one more
* `filtered`: one diagnostic for each place, in the order of places
-/

namespace Stencil.Diagnostic

/-- Adds a diagnostic to those kept. At a place that has one already it takes that one's position
if it has the higher priority, and is dropped otherwise. -/
def keep : List Diagnostic → Diagnostic → List Diagnostic
  | [], d => [d]
  | k :: rest, d =>
    if k.span.start = d.span.start then
      (if d.kind.suppresses k.kind then d else k) :: rest
    else k :: keep rest d

/-- One diagnostic for each place where one begins, in the order of places. -/
def filtered (ds : List Diagnostic) : List Diagnostic :=
  (ds.foldl keep []).mergeSort fun a b => a.span.start ≤ b.span.start

end Stencil.Diagnostic
