import Mathlib.Data.List.Infix
import Stencil.Markup.Tree
import Stencil.Proofs.Markup.References

/-!
# Writing a forest

A forest is written as markup: an element as its tags around its children, text with references for
the characters that would be taken for markup, the other constructs between their markers. A forest
in canonical form is one that can be read off what is written: no name runs into what follows it,
no two texts touch, and no construct holds its own end.

## Main definitions

* `Node.render`, `renderAll`: the markup of a node and of a forest
* `Node.Canonical`, `CanonicalAll`: canonical form, which is decidable
* `Node.unplaced`: a node without its places
-/

namespace Stencil.Markup

open Stencil.Text

/-! ## Markup of a forest -/

/-- Whether the text of a raw-text element is written as it stands. -/
def isVerbatim (name : String) : Bool :=
  isRawText name && !isEscapable name

/-- What stands in front of the text of a construct that is not compiled. -/
def OtherKind.opener : OtherKind → List Char
  | doctype => ['<', '!']
  | instruction => ['<', '?']
  | cdata => ['<', '!', '[', 'C', 'D', 'A', 'T', 'A', '[']

/-- What ends a construct that is not compiled. -/
def OtherKind.closer : OtherKind → List Char
  | doctype | instruction => ['>']
  | cdata => [']', ']', '>']

/-- An attribute, with its value in quotes. -/
def Attribute.render (a : Attribute) : List Char :=
  ' ' :: (a.name.toList ++ '=' :: '"' :: (Mark.quote.escape a.value.toList ++ ['"']))

/-- A start tag. -/
def Tag.renderStart (t : Tag) : List Char :=
  '<' :: (t.name.toList ++ t.attributes.flatMap Attribute.render ++ ['>'])

/-- The end tag of an element. -/
def renderEnd (name : String) : List Char :=
  '<' :: '/' :: (name.toList ++ ['>'])

mutual

/-- The markup of a node, whose text is written as it stands or with references. -/
def Node.render (verbatim : Bool) : Node → List Char
  | .element t children =>
    t.renderStart
      ++ if isVoid t.name then [] else renderAll (isVerbatim t.name) children ++ renderEnd t.name
  | .text s _ => if verbatim then s.toList else Mark.bracket.escape s.toList
  | .comment s _ => ['<', '!', '-', '-'] ++ s.toList ++ ['-', '-', '>']
  | .other kind s _ => kind.opener ++ s.toList ++ kind.closer

/-- The markup of a forest. -/
def renderAll (verbatim : Bool) : List Node → List Char
  | [] => []
  | node :: rest => node.render verbatim ++ renderAll verbatim rest

end

/-- The source of a forest. -/
def render (nodes : List Node) : String :=
  String.ofList (renderAll false nodes)

/-! ## Canonical form -/

/-- The characters that end the name of an element. -/
def elementNameEnds : List Char :=
  [' ', '\t', '\n', '\r', '\x0c', '/', '>']

/-- The characters that end the name of an attribute. -/
def attributeNameEnds : List Char :=
  elementNameEnds ++ ['"', '\x27', '<', '=']

/-- Names of elements: they begin with a small letter, and hold no capital and no end of a name. -/
structure IsElementName (name : List Char) : Prop where
  head : name.head?.any Char.isLower = true
  chars : ∀ c ∈ name, c.isUpper = false ∧ c ∉ elementNameEnds

/-- Names of attributes. -/
structure IsAttributeName (name : List Char) : Prop where
  ne_nil : name ≠ []
  chars : ∀ c ∈ name, c.isUpper = false ∧ c ∉ attributeNameEnds

/-- A tag with names that can be read back, no two attributes of one name. -/
structure Tag.Canonical (t : Tag) : Prop where
  name : IsElementName t.name.toList
  attributes : ∀ a ∈ t.attributes, IsAttributeName a.name.toList
  distinct : (t.attributes.map (·.name)).Nodup

/-- The text of a raw-text element: it does not hold the end tag of the element if it is written as
it stands. -/
def Node.IsBody (name : String) : Node → Prop
  | .text s _ => s ≠ "" ∧
      (isVerbatim name = true → ¬ '<' :: '/' :: name.toList <:+: s.toList.map Char.toLower)
  | _ => False

/-- Texts of constructs that are not compiled: they do not hold the end of the construct, and those
of a document type do not begin like a comment or a character data section. -/
def OtherKind.Canonical (s : List Char) : OtherKind → Prop
  | doctype => '>' ∉ s ∧ ¬ ['-', '-'] <+: s ∧ ¬ ['[', 'C', 'D', 'A', 'T', 'A', '['] <+: s
  | instruction => '>' ∉ s
  | cdata => ¬ [']', ']', '>'] <:+: s

/-- Whether a node is text. -/
def Node.isText : Node → Bool
  | .text _ _ => true
  | _ => false

mutual

/-- Canonical form of a node. -/
def Node.Canonical : Node → Prop
  | .element t children => t.Canonical ∧
      if isVoid t.name then children = []
      else if isRawText t.name then children.length ≤ 1 ∧ ∀ node ∈ children, node.IsBody t.name
      else CanonicalAll children
  | .text s _ => s ≠ ""
  | .comment s _ => ¬ ['-', '-', '>'] <:+: s.toList
  | .other kind s _ => kind.Canonical s.toList

/-- Canonical form of a forest: that of its nodes, and no two texts side by side. -/
def CanonicalAll : List Node → Prop
  | [] => True
  | node :: rest =>
    node.Canonical ∧ ¬ (node.isText ∧ rest.head?.any Node.isText) ∧ CanonicalAll rest

end

instance (name : List Char) : Decidable (IsElementName name) :=
  -- The characters of the name are looked at, not all characters there are.
  have : Decidable (∀ c ∈ name, c.isUpper = false ∧ c ∉ elementNameEnds) :=
    List.decidableBAll _ name
  decidable_of_iff (name.head?.any Char.isLower = true ∧
    ∀ c ∈ name, c.isUpper = false ∧ c ∉ elementNameEnds) ⟨fun h => ⟨h.1, h.2⟩, fun h => ⟨h.1, h.2⟩⟩

instance (name : List Char) : Decidable (IsAttributeName name) :=
  have : Decidable (∀ c ∈ name, c.isUpper = false ∧ c ∉ attributeNameEnds) :=
    List.decidableBAll _ name
  decidable_of_iff (name ≠ [] ∧ ∀ c ∈ name, c.isUpper = false ∧ c ∉ attributeNameEnds)
    ⟨fun h => ⟨h.1, h.2⟩, fun h => ⟨h.1, h.2⟩⟩

instance (t : Tag) : Decidable t.Canonical :=
  decidable_of_iff (IsElementName t.name.toList ∧
    (∀ a ∈ t.attributes, IsAttributeName a.name.toList) ∧ (t.attributes.map (·.name)).Nodup)
    ⟨fun h => ⟨h.1, h.2.1, h.2.2⟩, fun h => ⟨h.1, h.2, h.3⟩⟩

instance (name : String) : (node : Node) → Decidable (node.IsBody name)
  | .text s _ => inferInstanceAs (Decidable (s ≠ "" ∧
      (isVerbatim name = true → ¬ '<' :: '/' :: name.toList <:+: s.toList.map Char.toLower)))
  | .element _ _ | .comment _ _ | .other _ _ _ => inferInstanceAs (Decidable False)

instance (s : List Char) : (kind : OtherKind) → Decidable (kind.Canonical s)
  | .doctype => inferInstanceAs (Decidable (_ ∧ ¬ _ <+: _ ∧ ¬ _ <+: _))
  | .instruction => inferInstanceAs (Decidable (_ ∉ _))
  | .cdata => inferInstanceAs (Decidable (¬ _ <:+: _))

mutual

/-- Canonical form of a node is decidable. -/
def Node.decidableCanonical : (node : Node) → Decidable node.Canonical
  | .element t children =>
    have := decidableCanonicalAll children
    inferInstanceAs (Decidable (t.Canonical ∧
      if isVoid t.name then children = []
      else if isRawText t.name then children.length ≤ 1 ∧ ∀ node ∈ children, node.IsBody t.name
      else CanonicalAll children))
  | .text s _ => inferInstanceAs (Decidable (s ≠ ""))
  | .comment s _ => inferInstanceAs (Decidable (¬ _ <:+: s.toList))
  | .other kind s _ => inferInstanceAs (Decidable (kind.Canonical s.toList))

/-- Canonical form of a forest is decidable. -/
def decidableCanonicalAll : (nodes : List Node) → Decidable (CanonicalAll nodes)
  | [] => inferInstanceAs (Decidable True)
  | node :: rest =>
    have := node.decidableCanonical
    have := decidableCanonicalAll rest
    inferInstanceAs (Decidable (node.Canonical ∧ ¬ (node.isText ∧ rest.head?.any Node.isText) ∧
      CanonicalAll rest))

end

instance (nodes : List Node) : Decidable (CanonicalAll nodes) :=
  decidableCanonicalAll nodes

/-! ## Places -/

/-- An attribute without its place. -/
def Attribute.unplaced (a : Attribute) : Attribute :=
  { a with span := {} }

/-- A tag without its places. -/
def Tag.unplaced (t : Tag) : Tag :=
  ⟨t.name, t.attributes.map Attribute.unplaced, {}⟩

mutual

/-- A node without its places. -/
def Node.unplaced : Node → Node
  | .element t children => .element t.unplaced (unplacedAll children)
  | .text s _ => .text s {}
  | .comment s _ => .comment s {}
  | .other kind s _ => .other kind s {}

/-- A forest without its places. -/
def unplacedAll : List Node → List Node
  | [] => []
  | node :: rest => node.unplaced :: unplacedAll rest

end

end Stencil.Markup
