import Stencil.Text.Blank

/-!
# Element names with rules of their own

Void elements have neither children nor an end tag. The body of a raw-text element is not markup;
in two of them it still has character references.

## Main definitions

* `isVoid`, `isRawText`, `isEscapable`: by the name of an element, in small letters
-/

namespace Stencil.Markup

/-- The names of elements that never have children. -/
def voidNames : List String :=
  ["area", "base", "br", "col", "embed", "hr", "img", "input", "link", "meta", "param", "source",
    "track", "wbr"]

/-- The names of elements whose body is not markup. -/
def rawTextNames : List String :=
  ["script", "style", "textarea", "title"]

/-- The names of raw-text elements whose body has character references. -/
def escapableNames : List String :=
  ["textarea", "title"]

/-- Whether elements of this name never have children. -/
def isVoid (name : String) : Bool :=
  voidNames.contains name

/-- Whether the body of elements of this name is not markup. -/
def isRawText (name : String) : Bool :=
  rawTextNames.contains name

/-- Whether the body of raw-text elements of this name has character references. -/
def isEscapable (name : String) : Bool :=
  escapableNames.contains name

end Stencil.Markup
