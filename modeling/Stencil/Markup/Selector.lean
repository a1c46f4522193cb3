import Stencil.Markup.Node
import Stencil.Text.Blank

/-!
# Selectors

A selector picks the first element of a forest, in the order of the source, that has an identifier
or a name.

## Main definitions

* `Selector`, `Selector.parse?`: `#identifier`, or a name
* `Selector.accepts`: whether a tag has it
* `search`: the first element with a property, with the nodes that wait in a list
* `select`: the first element that a selector picks
-/

namespace Stencil.Markup

open Stencil.Text

/-- What to look for. -/
inductive Selector where
  | identifier (id : String)
  | name (name : String)
  deriving DecidableEq, Repr

namespace Selector

/-- The selector that a text writes. Blank text and a lone `#` write none. -/
def parse? (s : String) : Option Selector :=
  match trimChars s.toList with
  | [] => none
  | ['#'] => none
  | '#' :: id => some (identifier (String.ofList id))
  | cs => some (name (lowercase (String.ofList cs)))

/-- Whether a tag has what a selector looks for. -/
def accepts : Selector → Tag → Bool
  | identifier id, t => t.attribute? "id" = some id
  | name n, t => t.name = n

end Selector

/-- The first element whose tag has a property, among nodes that are still to be visited and what is
in them. The children of an element are visited before the nodes behind it. The nodes that wait are
a list, so that the depth of a forest does not matter. -/
def search (p : Tag → Bool) (pending : List Node) : Option Element :=
  match pending with
  | [] => none
  | .element tag children :: rest =>
    if p tag then some ⟨tag, children⟩ else search p (children ++ rest)
  | .text _ _ :: rest => search p rest
  | .comment _ _ :: rest => search p rest
  | .other _ _ _ :: rest => search p rest
termination_by countAll pending
decreasing_by
  · rw [countAll_append, countAll, Node.count]
    omega
  all_goals
    rw [countAll]
    exact Nat.lt_add_of_pos_left (Node.count_pos _)

/-- The first element of a forest that a selector picks. -/
def select (nodes : List Node) (selector : String) : Option Element :=
  match Selector.parse? selector with
  | none => none
  | some s => search s.accepts nodes

end Stencil.Markup
