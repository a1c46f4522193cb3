import Mathlib
import Stencil.Proofs.Markup.Constructs
import Stencil.Proofs.Markup.Matching

/-!
# The names of a source

The name of a tag begins with a letter and goes on up to what ends it, the name of an attribute is a
run of the characters that may stand in one, and both are taken in small letters. No letter is among
the characters that end a name, so that small letters bring none of these into it. A tag that is cut
off is no exception, since neither name looks ahead to the end of the tag.

What the library knows about small and capital letters is in no part of it that could be imported
alone.

## Main results

* `isElementName_scan`: **the names of start tags**
* `isAttributeName_tokenize`: **the names of attributes**
-/

namespace Stencil

namespace Text

/-- Lowering the case of a character makes it none of several characters that are no letters. -/
theorem toLower_notMem {chars : List Char} (hchars : ∀ c ∈ chars, c.isAlpha = false) {x : Char}
    (hx : x ∉ chars) : x.toLower ∉ chars := by
  intro hlower
  -- A character that becomes no letter is none, so that it was the same before.
  have hletter := hchars _ hlower
  rw [Char.isAlpha_toLower_eq_isAlpha] at hletter
  have hsame : x.toLower = x := by
    apply Char.toLower_eq_of_not_isUpper
    intro hupper
    rw [Char.isAlpha, hupper] at hletter
    cases hletter
  exact hx (hsame ▸ hlower)

end Text

namespace Markup

open Stencil.Text

/-! ## The names of elements -/

/-- The name of a tag in small letters. -/
theorem isElementName_takeWhile {c : Char} (hc : c.isAlpha = true) (rest : List Char) :
    IsElementName (((c :: rest).takeWhile isTagNameChar).map Char.toLower) := by
  constructor
  · rw [List.takeWhile_cons_of_pos (isTagNameChar_of_isAlpha hc)]
    show c.toLower.isLower = true
    rw [Char.isLower_toLower_eq_isAlpha, hc]
  · intro d hd
    obtain ⟨x, hx, rfl⟩ := List.mem_map.mp hd
    exact ⟨Char.isUpper_toLower_eq_false x, toLower_notMem
      (fun _ => isAlpha_of_mem_elementNameEnds) (isTagNameChar_iff.mp (List.mem_takeWhile_imp hx))⟩

/-- **The names of start tags** begin with a letter and hold no separator. -/
theorem isElementName_scan (o : Nat) (s : List Char) :
    ForTokens (fun kind => kind = .startTag) (fun t _ => IsElementName (t.tagName 1).toList)
      (tokensFrom o (scan s)) := by
  refine forTokens_scan rfl ?_ o s
  intro o s text more hbegins hcons
  obtain ⟨c, rest, hc, rfl, -⟩ := construct_of_startTag hbegins hcons
  rw [tagName_startTag, String.toList_ofList]
  exact isElementName_takeWhile hc rest

/-! ## The names of attributes -/

theorem isAlpha_of_mem_attributeNameEnds {c : Char} (h : c ∈ attributeNameEnds) :
    c.isAlpha = false := by
  have hall : attributeNameEnds.all (fun c => !c.isAlpha) = true := by decide
  simpa using List.all_eq_true.mp hall c h

/-- The name of an attribute in small letters. -/
theorem isAttributeName_map_toLower {name : List Char} (hne : name ≠ [])
    (h : ∀ c ∈ name, isAttrNameChar c = true) : IsAttributeName (name.map Char.toLower) := by
  constructor
  · exact mt List.map_eq_nil_iff.mp hne
  · intro d hd
    obtain ⟨x, hx, rfl⟩ := List.mem_map.mp hd
    exact ⟨Char.isUpper_toLower_eq_false x, toLower_notMem
      (fun _ => isAlpha_of_mem_attributeNameEnds) (isAttrNameChar_iff.mp (h x hx))⟩

/-- A lexeme that holds only characters of a name if it is the name of an attribute. -/
def Lexeme.IsNamed (x : Lexeme) : Prop :=
  x.kind = some .attrName → ∀ c ∈ x.text, isAttrNameChar c = true

theorem Lexeme.isNamed_of_ne {x : Lexeme} (h : x.kind ≠ some .attrName) : x.IsNamed :=
  fun heq => absurd heq h

/-- Of the pieces of a tag, only one is a name: what is left of the characters. -/
theorem isNamed_of_mem_tagPiece {c : Char} (hc : c ≠ '>') (rest : List Char) :
    ∀ x ∈ (tagPiece c rest).1, x.IsNamed := by
  unfold tagPiece
  split
  · exact List.forall_mem_singleton.mpr (Lexeme.isNamed_of_ne (by simp))
  split
  · dsimp only [equalsPiece]
    split
    · intro x hx
      simp only [List.mem_cons, List.mem_append, List.not_mem_nil, or_false] at hx
      rcases hx with rfl | hx | rfl
      · exact Lexeme.isNamed_of_ne (by simp)
      · unfold lexemeOf at hx
        split at hx
        · cases hx
        · rw [List.mem_singleton.mp hx]
          exact Lexeme.isNamed_of_ne (by simp)
      · exact Lexeme.isNamed_of_ne (by simp)
    · exact List.forall_mem_singleton.mpr (Lexeme.isNamed_of_ne (by simp))
  split
  · unfold quotePiece
    split <;> exact List.forall_mem_singleton.mpr (Lexeme.isNamed_of_ne (by simp))
  split
  · dsimp only [bracketPiece]
    split <;> exact List.forall_mem_singleton.mpr (Lexeme.isNamed_of_ne (by simp))
  split
  · exact List.forall_mem_singleton.mpr (Lexeme.isNamed_of_ne (by simp))
  · rename_i hseparator hequals hquote hbracket hslash
    refine List.forall_mem_singleton.mpr fun _ d hd => ?_
    rcases List.mem_cons.mp hd with rfl | hd
    · simp_all [isAttrNameChar]
    · exact List.mem_takeWhile_imp hd

theorem isNamed_of_mem_scanTag (s : List Char) : ∀ x ∈ (scanTag s).lexemes, x.IsNamed := by
  fun_induction scanTag s with
  | case1 => exact List.forall_mem_nil _
  | case2 => exact List.forall_mem_singleton.mpr (Lexeme.isNamed_of_ne (by simp))
  | case3 => exact List.forall_mem_singleton.mpr (Lexeme.isNamed_of_ne (by simp))
  | case4 c s hend _ piece more ih =>
    intro x hx
    rcases List.mem_append.mp hx with hx | hx
    · exact isNamed_of_mem_tagPiece hend s x hx
    · exact ih x hx

theorem isNamed_of_mem_tagConstruct {kind : TokenKind} (hkind : kind.opensTag = true)
    (opener s : List Char) : ∀ x ∈ (tagConstruct kind opener s).1, x.IsNamed := by
  have hhead : ∀ x ∈ (⟨some kind, opener ++ s.takeWhile isTagNameChar⟩ : Lexeme)
      :: (scanTag (s.dropWhile isTagNameChar)).lexemes, x.IsNamed := by
    refine List.forall_mem_cons.mpr ⟨?_, isNamed_of_mem_scanTag _⟩
    apply Lexeme.isNamed_of_ne
    rintro ⟨⟩
    cases hkind
  dsimp only [tagConstruct]
  split
  · intro x hx
    rcases List.mem_append.mp hx with hx | hx
    · exact hhead x hx
    · dsimp only [rawBody, lexemeOf] at hx
      split at hx
      · cases hx
      · rw [List.mem_singleton.mp hx]
        exact Lexeme.isNamed_of_ne (by simp)
  · exact hhead

/-- **The names of attributes** are runs of the characters that may stand in one. -/
theorem isNamed_of_mem_scan (s : List Char) : ∀ x ∈ scan s, x.IsNamed := by
  fun_induction scan s with
  | case1 => exact List.forall_mem_nil _
  | case2 c s hbegins ih =>
    have hconstruct : ∀ x ∈ (construct (c :: s)).1, x.IsNamed := by
      rcases construct_cases hbegins with ⟨body, -, h⟩ | ⟨kind, text, rest, hlone, -, h⟩ |
          ⟨d, rest, -, -, h⟩ | ⟨d, rest, -, -, h⟩
      · rw [h]
        exact List.forall_mem_singleton.mpr (Lexeme.isNamed_of_ne (by simp))
      · rw [h]
        refine List.forall_mem_singleton.mpr (Lexeme.isNamed_of_ne ?_)
        rintro ⟨⟩
        cases hlone
      · rw [h]
        exact isNamed_of_mem_tagConstruct rfl _ _
      · rw [h]
        exact isNamed_of_mem_tagConstruct rfl _ _
    intro x hx
    rcases List.mem_append.mp hx with hx | hx
    · exact hconstruct x hx
    · exact ih x hx
  | case3 c s _ run ih =>
    exact List.forall_mem_cons.mpr ⟨Lexeme.isNamed_of_ne (by simp), ih⟩

/-- **The names of the attributes of a source**, in small letters. -/
theorem isAttributeName_tokenize (source : String) :
    ∀ t ∈ tokenize source, t.kind = .attrName → IsAttributeName (lowercase t.text).toList := by
  intro t ht hkind
  obtain ⟨front, kind, text, back, hscan, rfl⟩ := mem_tokensFrom.mp ht
  cases (show kind = .attrName from hkind)
  have hmem : (⟨some .attrName, text⟩ : Lexeme) ∈ scan source.toList := by
    rw [hscan]
    exact List.mem_append_right _ (List.mem_cons_self ..)
  rw [lowercase, String.toList_ofList, String.toList_ofList]
  exact isAttributeName_map_toLower (ne_nil_of_mem_scan _ _ hmem) (isNamed_of_mem_scan _ _ hmem rfl)

end Markup

end Stencil
