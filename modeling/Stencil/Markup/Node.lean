import Stencil.Span

/-!
# Nodes

Markup is a forest: elements with attributes and children, text, comments, and the few other
constructs that a template may hold but that are not compiled.

## Main definitions

* `Attribute`, `Tag`, `Node`: the parts of a forest
* `Element`: a tag with its children
* `Node.count`, `countAll`: the number of nodes
-/

namespace Stencil.Markup

/-- Constructs that are not compiled. -/
inductive OtherKind where
  | doctype
  | instruction
  | cdata
  deriving DecidableEq, Repr

/-- The words for a construct that is not compiled. -/
def OtherKind.name : OtherKind → String
  | doctype => "doctype"
  | instruction => "processing instruction"
  | cdata => "CDATA section"

/-- An attribute and its place. -/
structure Attribute where
  name : String
  value : String
  span : Span := {}
  deriving DecidableEq, Repr

/-- The name, the attributes and the place of an element. -/
structure Tag where
  name : String
  attributes : List Attribute := []
  span : Span := {}
  deriving DecidableEq, Repr

/-- A node of a forest. -/
inductive Node where
  | element (tag : Tag) (children : List Node)
  | text (text : String) (span : Span)
  | comment (text : String) (span : Span)
  | other (kind : OtherKind) (text : String) (span : Span)
  deriving Repr

/-- The place of a node. -/
def Node.span : Node → Span
  | element tag _ => tag.span
  | text _ s => s
  | comment _ s => s
  | other _ _ s => s

/-- The value of the first attribute of a name. -/
def Tag.attribute? (t : Tag) (name : String) : Option String :=
  (t.attributes.find? (·.name = name)).map (·.value)

/-- A tag with its children. -/
structure Element where
  tag : Tag
  children : List Node
  deriving Repr

/-! ## The number of nodes -/

mutual

/-- The number of nodes in a node, itself included. -/
def Node.count : Node → Nat
  | .element _ children => countAll children + 1
  | .text _ _ => 1
  | .comment _ _ => 1
  | .other _ _ _ => 1

/-- The number of nodes in a forest. -/
def countAll : List Node → Nat
  | [] => 0
  | node :: rest => node.count + countAll rest

end

theorem countAll_append (nodes nodes' : List Node) :
    countAll (nodes ++ nodes') = countAll nodes + countAll nodes' := by
  induction nodes with
  | nil => rw [countAll, Nat.zero_add, List.nil_append]
  | cons node nodes ih => rw [List.cons_append, countAll, countAll, ih, Nat.add_assoc]

theorem Node.count_pos (node : Node) : 0 < node.count := by
  cases node <;> simp [count]

end Stencil.Markup
