import Stencil.Proofs.Markup.TokenOrder

/-!
# What constructs are made of

A construct begins with a token that tells its kind: a comment, a declaration, or the bracket and
the name of a tag. All other tokens of a construct stand inside a tag or are the body of a raw-text
element. So what is true of every token that begins a construct, and of the tokens behind it, is
shown construct by construct.

## Main definitions

* `TokenKind.isFirst`: the kinds with which constructs begin
* `ForTokens`: a relation between the tokens of some kinds and those behind them

## Main results

* `scanTag_ends`: the three ways in which a tag ends
* `construct_cases`: the constructs, by their first characters
* `construct_of_startTag`, `construct_of_comment`: a start tag and a comment, by the first token
* `forTokens_scan`: **what holds of every construct of a kind holds of all tokens that begin one**
-/

namespace Stencil.Markup

open Stencil.Text

/-! ## Tags -/

/-- The kinds with which constructs begin. -/
def TokenKind.isFirst : TokenKind → Bool
  | startTag | endTag | comment | cdata | doctype | instruction => true
  | _ => false

theorem TokenKind.isFirst_of_isInner {kind : TokenKind} (h : kind.isInner = true) :
    kind.isFirst = false := by
  revert h
  cases kind <;> decide

/-- **The three ways in which a tag ends**, behind its inner lexemes: with the source, with a
bracket, or with a slash and a bracket. -/
theorem scanTag_ends (s : List Char) : ∃ inner, (∀ x ∈ inner, x.IsInner) ∧
    ((scanTag s).lexemes = inner ∧ (scanTag s).rest = [] ∧ (scanTag s).selfClosed = false ∨
      (scanTag s).lexemes = inner ++ [⟨some .tagEnd, ['>']⟩] ∧ (scanTag s).selfClosed = false ∨
      (scanTag s).lexemes = inner ++ [⟨some .tagSelfClose, ['/', '>']⟩] ∧
        (scanTag s).selfClosed = true) := by
  fun_induction scanTag s with
  | case1 => exact ⟨[], List.forall_mem_nil _, .inl ⟨rfl, rfl, rfl⟩⟩
  | case2 => exact ⟨[], List.forall_mem_nil _, .inr (.inl ⟨rfl, rfl⟩)⟩
  | case3 => exact ⟨[], List.forall_mem_nil _, .inr (.inr ⟨rfl, rfl⟩)⟩
  | case4 c s _ _ piece more ih =>
    -- A piece in front of a tag adds to the inner lexemes and changes nothing about the end.
    obtain ⟨inner, hinner, hend⟩ := ih
    refine ⟨piece.1 ++ inner, ?_, ?_⟩
    · intro x hx
      rcases List.mem_append.mp hx with hx | hx
      · exact isInner_of_mem_tagPiece c s x hx
      · exact hinner x hx
    · rcases hend with ⟨hlexemes, hrest, hclosed⟩ | ⟨hlexemes, hclosed⟩ | ⟨hlexemes, hclosed⟩
      · exact .inl ⟨congrArg (piece.1 ++ ·) hlexemes, hrest, hclosed⟩
      · refine .inr (.inl ⟨?_, hclosed⟩)
        rw [List.append_assoc]
        exact congrArg (piece.1 ++ ·) hlexemes
      · refine .inr (.inr ⟨?_, hclosed⟩)
        rw [List.append_assoc]
        exact congrArg (piece.1 ++ ·) hlexemes

theorem isFirst_of_mem_isInner {inner : List Lexeme} (h : ∀ x ∈ inner, x.IsInner) :
    ∀ x ∈ inner, ∀ kind ∈ x.kind, kind.isFirst = false := by
  rintro ⟨-, text⟩ hx kind rfl
  exact TokenKind.isFirst_of_isInner (h _ hx)

/-- No construct begins behind the name of a tag. -/
theorem isFirst_of_mem_scanTag (s : List Char) :
    ∀ x ∈ (scanTag s).lexemes, ∀ kind ∈ x.kind, kind.isFirst = false := by
  obtain ⟨inner, hinner, hend⟩ := scanTag_ends s
  have hfirst := isFirst_of_mem_isInner hinner
  rcases hend with ⟨hlexemes, -⟩ | ⟨hlexemes, -⟩ | ⟨hlexemes, -⟩
  · rwa [hlexemes]
  all_goals
    rw [hlexemes]
    intro x hx
    rcases List.mem_append.mp hx with hx | hx
    · exact hfirst x hx
    · rw [List.mem_singleton.mp hx]
      rintro kind ⟨⟩
      rfl

/-- A tag begins with its brackets and its name, and no other construct begins in it. -/
theorem exists_tagConstruct_eq_cons (kind : TokenKind) (opener s : List Char) :
    ∃ more, (tagConstruct kind opener s).1 =
        ⟨some kind, opener ++ s.takeWhile isTagNameChar⟩ :: more ∧
      ∀ x ∈ more, ∀ kind ∈ x.kind, kind.isFirst = false := by
  have htag := isFirst_of_mem_scanTag (s.dropWhile isTagNameChar)
  dsimp only [tagConstruct]
  split
  · refine ⟨_, rfl, ?_⟩
    intro x hx
    rcases List.mem_append.mp hx with hx | hx
    · exact htag x hx
    · dsimp only [rawBody, lexemeOf] at hx
      split at hx
      · cases hx
      · rw [List.mem_singleton.mp hx]
        rintro kind ⟨⟩
        rfl
  · exact ⟨_, rfl, htag⟩

/-! ## Constructs -/

/-- **The constructs, by their first characters**: a comment, another construct between markers, an
end tag, and a start tag. -/
theorem construct_cases {s : List Char} (h : beginsMarkup s = true) :
    (∃ body, s = '<' :: '!' :: '-' :: '-' :: body ∧
      construct s = ([⟨some .comment, '<' :: '!' :: '-' :: '-' ::
        (breakPast ['-', '-', '>'] body).1⟩], (breakPast ['-', '-', '>'] body).2)) ∨
    (∃ kind text rest, kind.isLone = true ∧ kind ≠ .comment ∧
      construct s = ([⟨some kind, text⟩], rest)) ∨
    (∃ c rest, c.isAlpha = true ∧ s = '<' :: '/' :: c :: rest ∧
      construct s = tagConstruct .endTag ['<', '/'] (c :: rest)) ∨
    ∃ c rest, c.isAlpha = true ∧ s = '<' :: c :: rest ∧
      construct s = tagConstruct .startTag ['<'] (c :: rest) := by
  unfold beginsMarkup at h
  split at h
  · rename_i rest
    by_cases hcomment : ['-', '-'] <+: rest
    · obtain ⟨body, rfl⟩ := hcomment
      exact .inl ⟨body, rfl, rfl⟩
    · right; left
      by_cases hcdata : ['[', 'C', 'D', 'A', 'T', 'A', '['] <+: rest
      · obtain ⟨body, rfl⟩ := hcdata
        exact ⟨.cdata, _, _, rfl, nofun, rfl⟩
      · exact ⟨.doctype, _, _, rfl, nofun, construct_doctype hcomment hcdata⟩
  · exact .inr (.inl ⟨.instruction, _, _, rfl, nofun, rfl⟩)
  · exact .inr (.inr (.inl ⟨_, _, h, rfl, rfl⟩))
  · exact .inr (.inr (.inr ⟨_, _, h, rfl, construct_startTag h _⟩))
  · cases h

/-- The construct that begins with the first token of a start tag. -/
theorem construct_of_startTag {s text : List Char} {more : List Lexeme}
    (h : beginsMarkup s = true) (hcons : (construct s).1 = ⟨some .startTag, text⟩ :: more) :
    ∃ c rest, c.isAlpha = true ∧ text = '<' :: (c :: rest).takeWhile isTagNameChar ∧
      construct s = tagConstruct .startTag ['<'] (c :: rest) := by
  rcases construct_cases h with ⟨body, -, hs⟩ | ⟨kind, text, rest, hlone, -, hs⟩ |
      ⟨c, rest, -, -, hs⟩ | ⟨c, rest, hc, -, hs⟩
  · rw [hs] at hcons
    cases hcons
  · rw [hs] at hcons
    cases hcons
    cases hlone
  · obtain ⟨more', hmore', -⟩ := exists_tagConstruct_eq_cons .endTag ['<', '/'] (c :: rest)
    rw [hs, hmore'] at hcons
    cases hcons
  · obtain ⟨more', hmore', -⟩ := exists_tagConstruct_eq_cons .startTag ['<'] (c :: rest)
    refine ⟨c, rest, hc, ?_, hs⟩
    rw [hs, hmore'] at hcons
    cases hcons
    rfl

/-- The construct that begins with a comment. -/
theorem construct_of_comment {s text : List Char} {more : List Lexeme}
    (h : beginsMarkup s = true) (hcons : (construct s).1 = ⟨some .comment, text⟩ :: more) :
    ∃ body, text = '<' :: '!' :: '-' :: '-' :: (breakPast ['-', '-', '>'] body).1 ∧ more = [] ∧
      (construct s).2 = (breakPast ['-', '-', '>'] body).2 := by
  rcases construct_cases h with ⟨body, -, hs⟩ | ⟨kind, text, rest, -, hne, hs⟩ |
      ⟨c, rest, -, -, hs⟩ | ⟨c, rest, -, -, hs⟩
  · rw [hs] at hcons ⊢
    cases hcons
    exact ⟨body, rfl, rfl, rfl⟩
  · rw [hs] at hcons
    cases hcons
    exact absurd rfl hne
  · obtain ⟨more', hmore', -⟩ := exists_tagConstruct_eq_cons .endTag ['<', '/'] (c :: rest)
    rw [hs, hmore'] at hcons
    cases hcons
  · obtain ⟨more', hmore', -⟩ := exists_tagConstruct_eq_cons .startTag ['<'] (c :: rest)
    rw [hs, hmore'] at hcons
    cases hcons

/-! ## Tokens and those behind them -/

/-- Tokens of which each one of some kinds stands in a relation to those behind it. -/
def ForTokens (p : TokenKind → Bool) (R : Token → List Token → Prop) (ts : List Token) : Prop :=
  ∀ t rest, t :: rest <:+ ts → p t.kind = true → R t rest

section ForTokens

variable {p : TokenKind → Bool} {R : Token → List Token → Prop} {ts : List Token}

theorem ForTokens.suffix (h : ForTokens p R ts) {rest : List Token} (hrest : rest <:+ ts) :
    ForTokens p R rest :=
  fun t after hafter => h t after (hafter.trans hrest)

theorem forTokens_nil : ForTokens p R [] := by
  intro t rest hsuffix
  cases List.suffix_nil.mp hsuffix

theorem ForTokens.cons (h : ForTokens p R ts) {t : Token} (ht : p t.kind = true → R t ts) :
    ForTokens p R (t :: ts) := by
  intro x rest hsuffix
  rcases List.suffix_cons_iff.mp hsuffix with heq | hsuffix
  · cases heq
    exact ht
  · exact h x rest hsuffix

/-- A token of another kind in front. -/
theorem ForTokens.cons_of_neg (h : ForTokens p R ts) {t : Token} (ht : p t.kind = false) :
    ForTokens p R (t :: ts) := by
  apply h.cons
  intro hp
  rw [ht] at hp
  cases hp

/-- Tokens of other kinds in front. -/
theorem ForTokens.append (h : ForTokens p R ts) {front : List Token}
    (hfront : ∀ x ∈ front, p x.kind = false) : ForTokens p R (front ++ ts) := by
  induction front with
  | nil => exact h
  | cons x front ih =>
    obtain ⟨hx, hfront⟩ := List.forall_mem_cons.mp hfront
    exact (ih hfront).cons_of_neg hx

/-- Lexemes of other kinds have no tokens of the given kinds. -/
theorem forall_tokensFrom {l : List Lexeme} (h : ∀ x ∈ l, ∀ kind ∈ x.kind, p kind = false)
    (o : Nat) : ∀ t ∈ tokensFrom o l, p t.kind = false := by
  intro t ht
  obtain ⟨front, kind, text, back, rfl, rfl⟩ := mem_tokensFrom.mp ht
  exact h ⟨some kind, text⟩ (List.mem_append_right _ (List.mem_cons_self ..)) kind rfl

/-- **What holds of every construct of a kind holds of all tokens that begin one.** The relation is
shown for the first token of a construct, the others of the construct and all behind it. -/
theorem forTokens_scan {first : TokenKind} (hfirst : first.isFirst = true)
    (hR : ∀ o s text more, beginsMarkup s = true →
      (construct s).1 = ⟨some first, text⟩ :: more →
      R ⟨first, String.ofList text, ⟨o, o + Utf8.size text⟩⟩
        (tokensFrom (o + Utf8.size text) (more ++ scan (construct s).2)))
    (o : Nat) (s : List Char) :
    ForTokens (fun kind => kind = first) R (tokensFrom o (scan s)) := by
  have hother : ∀ kind : TokenKind, kind.isFirst = false → decide (kind = first) = false := by
    intro kind hkind
    apply decide_eq_false
    rintro rfl
    rw [hfirst] at hkind
    cases hkind
  fun_induction scan s generalizing o with
  | case1 => exact forTokens_nil
  | case2 c s hbegins ih =>
    obtain ⟨kind, text, more, hcons, hmore⟩ : ∃ kind text more,
        (construct (c :: s)).1 = ⟨some kind, text⟩ :: more ∧
          ∀ x ∈ more, ∀ kind ∈ x.kind, kind.isFirst = false := by
      rcases construct_cases hbegins with ⟨body, -, h⟩ | ⟨kind, text, rest, -, -, h⟩ |
          ⟨d, rest, -, -, h⟩ | ⟨d, rest, -, -, h⟩
      · exact ⟨_, _, [], by rw [h], List.forall_mem_nil _⟩
      · exact ⟨_, _, [], by rw [h], List.forall_mem_nil _⟩
      · obtain ⟨more, hcons, hmore⟩ := exists_tagConstruct_eq_cons .endTag ['<', '/'] (d :: rest)
        exact ⟨_, _, more, by rw [h, hcons], hmore⟩
      · obtain ⟨more, hcons, hmore⟩ := exists_tagConstruct_eq_cons .startTag ['<'] (d :: rest)
        exact ⟨_, _, more, by rw [h, hcons], hmore⟩
    have hself : decide (kind = first) = true →
        R ⟨kind, String.ofList text, ⟨o, o + Utf8.size text⟩⟩
          (tokensFrom (o + Utf8.size text) (more ++ scan (construct (c :: s)).2)) := by
      intro hkind
      cases of_decide_eq_true hkind
      exact hR o (c :: s) text more hbegins hcons
    rw [hcons, List.cons_append, tokensFrom]
    refine ForTokens.cons ?_ hself
    rw [tokensFrom_append]
    refine (ih _).append (forall_tokensFrom (p := fun kind => kind = first) ?_ _)
    intro x hx k hk
    exact hother k (hmore x hx k hk)
  | case3 c s _ run ih => exact (ih _).cons_of_neg (hother .text rfl)

end ForTokens

end Stencil.Markup
