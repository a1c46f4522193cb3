import Mathlib.Data.List.Chain
import Stencil.Proofs.Markup.Nesting
import Stencil.Proofs.Markup.TokenOrder

/-!
# Tokens cover the source

The tokens of a source stand one behind the other, and what they leave out is never content. A byte
outside of all tokens stands inside a tag, behind the token that opens it and in front of the one
that closes it, and it is a separator or a slash. No two tokens in a row are text, so that a run of
text is one token.

What is left out can be told from the lexemes, which concatenate to the source: a byte outside of
all tokens belongs to a lexeme without a kind, and the order of lexemes says where those stand.

## Main definitions

* `Span.Holds`: an offset within a span
* `InTag`: an offset inside a tag
* `gapBytes`: the bytes that tokens may leave out
* `TokensCover`: tokens that cover a source

## Main results

* `exists_gap_at`: a byte outside of all tokens stands in a gap
* `Ordered.inTag`: a gap stands inside a tag
* `Ordered.isChain_tokensFrom`: no two tokens in a row are text
* `tokensCover_tokenize`: **the tokens of a source cover it**
-/

namespace Stencil

open Stencil.Text

/-- An offset within a span. -/
def Span.Holds (s : Span) (o : Nat) : Prop :=
  s.start ≤ o ∧ o < s.stop

namespace Markup

/-! ## Bytes of characters -/

theorem encode_ofList (s : List Char) :
    Utf8.encode (String.ofList s) = s.flatMap String.utf8EncodeChar := by
  rw [Utf8.encode, String.toByteArray_ofList, List.utf8Encode, List.data_toByteArray]

theorem length_encode_ofList (s : List Char) :
    (Utf8.encode (String.ofList s)).length = Utf8.size s := by
  rw [Utf8.length_encode, utf8ByteSize_ofList]

/-- The bytes of a source whose characters are cut in three. -/
theorem encode_of_toList_eq {source : String} {front mid back : List Char}
    (h : source.toList = front ++ (mid ++ back)) :
    Utf8.encode source = Utf8.encode (String.ofList front) ++
      (Utf8.encode (String.ofList mid) ++ Utf8.encode (String.ofList back)) := by
  have hsource : source = String.ofList (front ++ (mid ++ back)) := by
    rw [← h, String.ofList_toList]
  rw [hsource]
  simp only [encode_ofList, List.flatMap_append]

/-- The bytes that tokens may leave out: space, tab, line feed, form feed, carriage return and
slash. -/
def gapBytes : List UInt8 :=
  [0x20, 0x09, 0x0A, 0x0C, 0x0D, 0x2F]

/-- A character that means nothing inside a tag is one byte. -/
theorem utf8EncodeChar_of_isGapChar {c : Char} (h : isGapChar c = true) :
    ∃ b ∈ gapBytes, String.utf8EncodeChar c = [b] := by
  simp only [isGapChar, isSeparator, Bool.or_eq_true, decide_eq_true_eq] at h
  rcases h with (((((rfl | rfl) | rfl) | rfl) | rfl) | rfl) <;>
    exact ⟨_, by simp [gapBytes], rfl⟩

/-! ## Lexemes and offsets -/

/-- Every offset within lexemes stands in one of them. -/
theorem exists_lexeme_at {l : List Lexeme} {n : Nat} (hn : n < Utf8.size (flat l)) :
    ∃ front x back, l = front ++ x :: back ∧ Utf8.size (flat front) ≤ n ∧
      n < Utf8.size (flat front) + Utf8.size x.text := by
  induction l generalizing n with
  | nil => exact absurd hn (Nat.not_lt_zero n)
  | cons x l ih =>
    rw [flat_cons, Utf8.size_append] at hn
    by_cases hx : n < Utf8.size x.text
    · exact ⟨[], x, l, rfl, Nat.zero_le n, by simpa using hx⟩
    · obtain ⟨front, y, back, rfl, hle, hlt⟩ := ih (n := n - Utf8.size x.text) (by omega)
      refine ⟨x :: front, y, back, rfl, ?_, ?_⟩
      · rw [flat_cons, Utf8.size_append]
        omega
      · rw [flat_cons, Utf8.size_append]
        omega

/-- **A byte outside of all tokens stands in a gap.** -/
theorem exists_gap_at {source : String} {p : Nat} (hp : p < source.utf8ByteSize)
    (hout : ∀ t ∈ tokenize source, ¬ t.span.Holds p) :
    ∃ front text back, scan source.toList = front ++ ⟨none, text⟩ :: back ∧
      Utf8.size (flat front) ≤ p ∧ p < Utf8.size (flat front) + Utf8.size text := by
  have hsize : p < Utf8.size (flat (scan source.toList)) := by
    rwa [flat_scan, ← utf8ByteSize_ofList, String.ofList_toList]
  obtain ⟨front, ⟨kind, text⟩, back, hl, hle, hlt⟩ := exists_lexeme_at hsize
  cases kind with
  | none => exact ⟨front, text, back, hl, hle, hlt⟩
  | some kind =>
    exfalso
    apply hout _ (mem_tokensFrom.mpr ⟨front, kind, text, back, hl, rfl⟩)
    rw [← Nat.zero_add (Utf8.size (flat front))] at hle hlt
    exact ⟨hle, hlt⟩

/-! ## Gaps stand inside tags -/

/-- An offset inside a tag: behind the token that opens the tag and its inner tokens, or between
them, and in front of the token that closes it. A tag that no token closes reaches to the end. -/
def InTag (tokens : List Token) (p : Nat) : Prop :=
  ∃ before opener inner after, tokens = before ++ opener :: (inner ++ after) ∧
    (opener.kind = .startTag ∨ opener.kind = .endTag) ∧ (∀ t ∈ inner, t.kind.isInner = true) ∧
    opener.span.stop ≤ p ∧
    (after = [] ∨ ∃ closer rest, after = closer :: rest ∧
      (closer.kind = .tagEnd ∨ closer.kind = .tagSelfClose) ∧ p < closer.span.start)

/-- **A gap stands inside a tag.** -/
theorem Ordered.inTag {front back : List Lexeme} {text : List Char} {p : Nat}
    (h : Ordered .between (front ++ ⟨none, text⟩ :: back)) (hle : Utf8.size (flat front) ≤ p)
    (hlt : p < Utf8.size (flat front) + Utf8.size text) :
    InTag (tokensFrom 0 (front ++ ⟨none, text⟩ :: back)) p := by
  obtain ⟨-, hback, ⟨hside, -⟩ | ⟨before, kind, name, mid, rfl, hkind, hmid⟩⟩ := h.opened
  · cases hside
  obtain ⟨mid', rest, rfl, hmid', hend⟩ := hback.closed
  simp only [List.append_assoc, List.cons_append, tokensFrom_append, tokensFrom, flat_append,
    flat_cons, Utf8.size_append, Nat.zero_add] at hle hlt ⊢
  refine ⟨_, _, _, _, congrArg _ (congrArg _ (List.append_assoc ..).symm),
    TokenKind.opensTag_iff.mp hkind, ?_, ?_, ?_⟩
  · intro t ht
    rcases List.mem_append.mp ht with ht | ht
    · exact isInner_kind_of_mem hmid t ht
    · exact isInner_kind_of_mem hmid' t ht
  · show Utf8.size (flat before) + Utf8.size name ≤ p
    omega
  · rcases hend with rfl | ⟨kind', text', more, rfl, hkind'⟩
    · exact .inl rfl
    · refine .inr ⟨_, _, rfl, TokenKind.closesTag_iff.mp hkind', ?_⟩
      show p < Utf8.size (flat before) + Utf8.size name + Utf8.size (flat mid) +
        Utf8.size text + Utf8.size (flat mid')
      omega

/-! ## Text in a row -/

/-- Between tags the first token is the first lexeme. -/
theorem Ordered.head?_tokensFrom {l : List Lexeme} (h : Ordered .between l) (o : Nat) :
    ∀ t ∈ (tokensFrom o l).head?, ∃ x ∈ l.head?, x.kind = some t.kind := by
  intro t ht
  cases h with
  | done => cases ht
  | lone _ _ _ =>
    cases ht
    exact ⟨_, rfl, rfl⟩
  | opening _ _ =>
    cases ht
    exact ⟨_, rfl, rfl⟩

/-- **No two tokens in a row are text.** -/
theorem Ordered.isChain_tokensFrom {side : Side} {l : List Lexeme} (h : Ordered side l) (o : Nat) :
    (tokensFrom o l).IsChain fun a b => ¬ (a.kind = .text ∧ b.kind = .text) := by
  induction h generalizing o with
  | done => exact .nil
  | @lone kind text rest _ htext hrest ih =>
    refine (ih _).cons ?_
    rintro t ht ⟨hk, hk'⟩
    obtain ⟨x, hx, hkind⟩ := hrest.head?_tokensFrom _ t ht
    exact htext hk x hx (by rw [hkind, hk'])
  | @opening kind text rest hkind _ ih =>
    refine (ih _).cons ?_
    rintro t - ⟨rfl, -⟩
    cases hkind
  | @inner x rest hx _ ih =>
    obtain ⟨kind, text⟩ := x
    cases kind with
    | none => exact ih _
    | some kind =>
      refine (ih _).cons ?_
      rintro t - ⟨rfl, -⟩
      cases hx
  | @closing kind text rest hkind _ ih =>
    refine (ih _).cons ?_
    rintro t - ⟨rfl, -⟩
    cases hkind

/-! ## The tokens of a source -/

/-- Tokens that cover a source: they are pieces of it that are not empty, one behind the other, with
ends at boundaries of characters; every byte that they leave out is a separator or a slash inside a
tag; and no two of them in a row are text. -/
structure TokensCover (source : String) (tokens : List Token) : Prop where
  inside : ∀ t ∈ tokens, t.span.Inside source
  pieces : ∀ t ∈ tokens, Utf8.encode t.text =
    ((Utf8.encode source).drop t.span.start).take (t.span.stop - t.span.start)
  ordered : (tokens.map (·.span)).Pairwise Span.Before
  gaps : ∀ p < source.utf8ByteSize, (∀ t ∈ tokens, ¬ t.span.Holds p) →
    InTag tokens p ∧ ∃ b ∈ gapBytes, (Utf8.encode source)[p]? = some b
  texts_apart : tokens.IsChain fun a b => ¬ (a.kind = .text ∧ b.kind = .text)

/-- A token is the piece of the source where it stands. -/
theorem encode_text_of_mem_tokenize {source : String} {t : Token} (ht : t ∈ tokenize source) :
    Utf8.encode t.text =
      ((Utf8.encode source).drop t.span.start).take (t.span.stop - t.span.start) := by
  obtain ⟨front, kind, text, back, hl, rfl⟩ := mem_tokensFrom.mp ht
  have hsource : source.toList = flat front ++ (text ++ flat back) := by
    rw [← flat_scan source.toList, hl, flat_append, flat_cons]
  rw [encode_of_toList_eq hsource]
  dsimp only
  rw [Nat.zero_add, Nat.add_sub_cancel_left, ← length_encode_ofList (flat front), List.drop_left,
    ← length_encode_ofList text, List.take_left]

/-- A byte in a gap is a separator or a slash. -/
theorem exists_gapByte {source : String} {front back text : List Char} {p : Nat}
    (h : source.toList = front ++ (text ++ back)) (htext : ∀ c ∈ text, isGapChar c = true)
    (hle : Utf8.size front ≤ p) (hlt : p < Utf8.size front + Utf8.size text) :
    ∃ b ∈ gapBytes, (Utf8.encode source)[p]? = some b := by
  have hlen : p - Utf8.size front < (Utf8.encode (String.ofList text)).length := by
    rw [length_encode_ofList]
    omega
  have hmem : (Utf8.encode (String.ofList text))[p - Utf8.size front] ∈
      text.flatMap String.utf8EncodeChar := by
    rw [← encode_ofList]
    exact List.getElem_mem hlen
  obtain ⟨c, hc, hbyte⟩ := List.mem_flatMap.mp hmem
  obtain ⟨b, hb, hencode⟩ := utf8EncodeChar_of_isGapChar (htext c hc)
  rw [hencode, List.mem_singleton] at hbyte
  refine ⟨b, hb, ?_⟩
  rw [encode_of_toList_eq h, List.getElem?_append_right (by rwa [length_encode_ofList]),
    length_encode_ofList, List.getElem?_append_left hlen, List.getElem?_eq_getElem hlen, hbyte]

/-- **The tokens of a source cover it.** They are pieces of the source that are not empty, one
behind the other and with ends at boundaries of characters. A byte outside of all of them stands
inside a tag, behind the token that opens it and in front of the one that closes it if there is one,
and is a space, a tab, a line feed, a form feed, a carriage return or a slash. No two tokens in a
row are text. -/
theorem tokensCover_tokenize (source : String) : TokensCover source (tokenize source) := by
  have hlaid := laid_tokenize source
  have hordered := ordered_scan source.toList
  constructor
  · intro t ht
    exact (hlaid.of_mem (List.mem_map_of_mem ht)).2.1.inside
  · intro t ht
    exact encode_text_of_mem_tokenize ht
  · exact hlaid.pairwise
  · intro p hp hout
    obtain ⟨front, text, back, hl, hle, hlt⟩ := exists_gap_at hp hout
    have hsource : source.toList = flat front ++ (text ++ flat back) := by
      rw [← flat_scan source.toList, hl, flat_append, flat_cons]
    rw [hl] at hordered
    refine ⟨?_, exists_gapByte hsource hordered.opened.1 hle hlt⟩
    rw [tokenize, hl]
    exact hordered.inTag hle hlt
  · exact hordered.isChain_tokensFrom 0

end Markup

end Stencil
