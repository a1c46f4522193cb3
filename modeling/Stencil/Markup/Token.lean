import Stencil.Markup.Lexeme
import Stencil.Span
import Stencil.Text.Utf8

/-!
# Tokens

A token is a lexeme that means something, with the place in the source where it stands. Offsets
count bytes.

## Main definitions

* `Token`, `tokensFrom`: lexemes with their places
* `tokenize`: the tokens of a source
-/

namespace Stencil.Markup

open Stencil.Text

/-- A piece of source that means something, and its place. -/
structure Token where
  kind : TokenKind
  text : String
  span : Span
  deriving DecidableEq, Repr

/-- The tokens among lexemes, the first of which begins at `offset`. -/
def tokensFrom : Nat → List Lexeme → List Token
  | _, [] => []
  | offset, ⟨none, text⟩ :: rest => tokensFrom (offset + Utf8.size text) rest
  | offset, ⟨some kind, text⟩ :: rest =>
    ⟨kind, String.ofList text, ⟨offset, offset + Utf8.size text⟩⟩
      :: tokensFrom (offset + Utf8.size text) rest

/-- The tokens of a source. -/
def tokenize (source : String) : List Token :=
  tokensFrom 0 (scan source.toList)

end Stencil.Markup
