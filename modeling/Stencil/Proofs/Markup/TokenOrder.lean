import Stencil.Proofs.Markup.Grouping
import Stencil.Proofs.Markup.Placement

/-!
# The order of lexemes

A source has two sides: between tags, where text and other constructs stand, and inside a tag.
What opens a tag leads inside, and what closes it leads back. Only inside a tag are there pieces of
source that mean nothing, and they hold nothing but separators and slashes. A tag that nothing
closes is cut off by the end of the source, so that nothing stands behind it. Between tags no text
stands behind text, since a run of text goes on up to the next construct.

## Main definitions

* `TokenKind.opensTag`, `TokenKind.closesTag`, `TokenKind.isLone`: what stands where
* `Lexeme.IsInner`: what may stand inside a tag
* `Ordered`: lexemes in order, from one of the two sides on

## Main results

* `ordered_scanTag`, `ordered_construct`: what stands in front of lexemes that are in order
* `ordered_scan`: **the lexemes of a source are in order**
* `Ordered.opened`, `Ordered.closed`: the tag in which a piece stands that means nothing
* `mem_tokensFrom`: tokens are the lexemes that have a kind
-/

namespace Stencil.Markup

open Stencil.Text

/-! ## What stands where -/

/-- The kinds with which a tag begins. -/
def TokenKind.opensTag : TokenKind → Bool
  | startTag | endTag => true
  | _ => false

/-- The kinds with which a tag ends. -/
def TokenKind.closesTag : TokenKind → Bool
  | tagEnd | tagSelfClose => true
  | _ => false

theorem TokenKind.opensTag_iff {kind : TokenKind} :
    kind.opensTag = true ↔ kind = .startTag ∨ kind = .endTag := by
  cases kind <;> decide

theorem TokenKind.closesTag_iff {kind : TokenKind} :
    kind.closesTag = true ↔ kind = .tagEnd ∨ kind = .tagSelfClose := by
  cases kind <;> decide

/-- The kinds that stand between tags on their own. -/
def TokenKind.isLone : TokenKind → Bool
  | text | rawText | comment | cdata | doctype | instruction => true
  | _ => false

/-- The characters that mean nothing inside a tag. -/
def isGapChar (c : Char) : Bool :=
  isSeparator c || c = '/'

/-- What may stand between the name and the end of a tag: an inner token, or a gap. -/
def Lexeme.IsInner (x : Lexeme) : Prop :=
  match x.kind with
  | none => ∀ c ∈ x.text, isGapChar c = true
  | some kind => kind.isInner = true

/-- The two sides of a source. -/
inductive Side where
  | between
  | inside

/-- Lexemes in order, from one of the two sides on. -/
inductive Ordered : Side → List Lexeme → Prop
  /-- A source may end anywhere. -/
  | done (side : Side) : Ordered side []
  /-- No text stands behind text. -/
  | lone {kind : TokenKind} {text : List Char} {rest : List Lexeme} (hkind : kind.isLone = true)
      (htext : kind = .text → ∀ x ∈ rest.head?, x.kind ≠ some .text)
      (hrest : Ordered .between rest) : Ordered .between (⟨some kind, text⟩ :: rest)
  | opening {kind : TokenKind} {text : List Char} {rest : List Lexeme}
      (hkind : kind.opensTag = true) (hrest : Ordered .inside rest) :
      Ordered .between (⟨some kind, text⟩ :: rest)
  | inner {x : Lexeme} {rest : List Lexeme} (hx : x.IsInner) (hrest : Ordered .inside rest) :
      Ordered .inside (x :: rest)
  | closing {kind : TokenKind} {text : List Char} {rest : List Lexeme}
      (hkind : kind.closesTag = true) (hrest : Ordered .between rest) :
      Ordered .inside (⟨some kind, text⟩ :: rest)

theorem Ordered.inner_append {front rest : List Lexeme} (hfront : ∀ x ∈ front, x.IsInner)
    (hrest : Ordered .inside rest) : Ordered .inside (front ++ rest) := by
  induction front with
  | nil => exact hrest
  | cons x front ih =>
    refine .inner (hfront x (List.mem_cons_self ..)) (ih ?_)
    intro y hy
    exact hfront y (List.mem_cons_of_mem x hy)

/-! ## Inside a tag -/

theorem isInner_gap {text : List Char} (h : ∀ c ∈ text, isSeparator c = true) :
    Lexeme.IsInner ⟨none, text⟩ := by
  intro c hc
  rw [isGapChar, h c hc, Bool.true_or]

theorem isInner_takeWhile (s : List Char) : Lexeme.IsInner ⟨none, s.takeWhile isSeparator⟩ := by
  apply isInner_gap
  intro c hc
  exact List.mem_takeWhile_imp hc

theorem isInner_of_mem_lexemeOf (s : List Char) :
    ∀ x ∈ lexemeOf none (s.takeWhile isSeparator), x.IsInner := by
  intro x hx
  unfold lexemeOf at hx
  split at hx
  · cases hx
  · rw [List.mem_singleton.mp hx]
    exact isInner_takeWhile s

/-- What a character other than the end of a tag begins inside it may stand there. -/
theorem isInner_of_mem_tagPiece (c : Char) (rest : List Char) :
    ∀ x ∈ (tagPiece c rest).1, x.IsInner := by
  unfold tagPiece
  split
  · rename_i hc
    intro x hx
    rw [List.mem_singleton.mp hx]
    apply isInner_gap
    intro d hd
    rcases List.mem_cons.mp hd with rfl | hd
    · exact hc
    · exact List.mem_takeWhile_imp hd
  split
  · dsimp only [equalsPiece]
    split
    · intro x hx
      simp only [List.mem_cons, List.mem_append, List.not_mem_nil, or_false] at hx
      rcases hx with rfl | hx | rfl
      · rfl
      · exact isInner_of_mem_lexemeOf rest x hx
      · rfl
    · intro x hx
      rw [List.mem_singleton.mp hx]
      rfl
  split
  · unfold quotePiece
    split <;> intro x hx <;> rw [List.mem_singleton.mp hx] <;> rfl
  split
  · dsimp only [bracketPiece]
    split <;> intro x hx <;> rw [List.mem_singleton.mp hx] <;> rfl
  split
  · intro x hx
    rw [List.mem_singleton.mp hx]
    intro d hd
    rw [List.mem_singleton.mp hd]
    rfl
  · intro x hx
    rw [List.mem_singleton.mp hx]
    rfl

/-- A tag behind its name, in front of lexemes that are in order. A tag that is cut off has nothing
behind it. -/
theorem ordered_scanTag (s : List Char) {rest : List Lexeme} (hrest : Ordered .between rest)
    (hcut : (scanTag s).rest = [] → rest = []) :
    Ordered .inside ((scanTag s).lexemes ++ rest) := by
  fun_induction scanTag s with
  | case1 =>
    rw [hcut rfl]
    exact .done _
  | case2 => exact .closing rfl hrest
  | case3 => exact .closing rfl hrest
  | case4 c s _ _ piece more ih =>
    rw [List.append_assoc]
    exact Ordered.inner_append (isInner_of_mem_tagPiece c s) (ih hcut)

/-! ## Between tags -/

variable {s : List Char} {rest : List Lexeme}

/-- A tag with its body, in front of lexemes that are in order. -/
theorem ordered_tagConstruct {kind : TokenKind} (hkind : kind.opensTag = true)
    (opener : List Char) (hrest : Ordered .between rest)
    (hcut : (tagConstruct kind opener s).2 = [] → rest = []) :
    Ordered .between ((tagConstruct kind opener s).1 ++ rest) := by
  revert hcut
  dsimp only [tagConstruct]
  split
  · intro hcut
    rw [List.append_assoc]
    refine .opening hkind (ordered_scanTag _ ?_ ?_)
    · dsimp only [rawBody]
      unfold lexemeOf
      split
      · exact hrest
      · exact .lone rfl (fun h => nomatch h) hrest
    · intro hnil
      rw [hnil] at hcut ⊢
      exact hcut rfl
  · intro hcut
    exact .opening hkind (ordered_scanTag _ hrest hcut)

/-- A construct in front of lexemes that are in order. -/
theorem ordered_construct (hrest : Ordered .between rest)
    (hcut : (construct s).2 = [] → rest = []) : Ordered .between ((construct s).1 ++ rest) := by
  unfold construct at hcut ⊢
  iterate 4 (split; · exact .lone rfl (fun h => nomatch h) hrest)
  split
  · simp only [*, Bool.false_eq_true, if_true, if_false] at hcut
    exact ordered_tagConstruct rfl _ hrest hcut
  · simp only [*, Bool.false_eq_true, if_false] at hcut
    exact ordered_tagConstruct rfl _ hrest hcut

/-- A construct does not begin with text. -/
theorem exists_construct_eq_cons (s : List Char) :
    ∃ kind text more, (construct s).1 = ⟨some kind, text⟩ :: more ∧ kind ≠ .text := by
  have htag : ∀ (kind : TokenKind) (opener t : List Char),
      ∃ text more, (tagConstruct kind opener t).1 = ⟨some kind, text⟩ :: more := by
    intro kind opener t
    dsimp only [tagConstruct]
    split
    · exact ⟨_, _, rfl⟩
    · exact ⟨_, _, rfl⟩
  unfold construct
  iterate 4 (split; · exact ⟨_, _, _, rfl, by decide⟩)
  split
  · obtain ⟨text, more, h⟩ := htag .endTag (s.take 2) (s.drop 2)
    exact ⟨_, text, more, h, by decide⟩
  · obtain ⟨text, more, h⟩ := htag .startTag (s.take 1) (s.drop 1)
    exact ⟨_, text, more, h, by decide⟩

/-- Where a construct begins there is no text. -/
theorem kind_head?_scan (h : s = [] ∨ beginsMarkup s = true) :
    ∀ x ∈ (scan s).head?, x.kind ≠ some .text := by
  cases s with
  | nil =>
    rw [scan]
    intro x hx
    cases hx
  | cons c s =>
    have hbegins : beginsMarkup (c :: s) = true := h.resolve_left (List.cons_ne_nil c s)
    obtain ⟨kind, text, more, hcons, hkind⟩ := exists_construct_eq_cons (c :: s)
    rw [scan, if_pos hbegins, hcons]
    intro x hx
    cases hx
    exact fun heq => hkind (Option.some.inj heq)

/-- **The lexemes of a source are in order.** -/
theorem ordered_scan (s : List Char) : Ordered .between (scan s) := by
  fun_induction scan s with
  | case1 => exact .done _
  | case2 c s _ ih =>
    apply ordered_construct ih
    intro hnil
    rw [hnil, scan]
  | case3 c s _ run ih =>
    refine .lone rfl ?_ ih
    intro _
    exact kind_head?_scan (breakAt_snd beginsMarkup s)

/-! ## The tag around a gap -/

/-- A gap stands inside a tag: behind what opens it there are only inner lexemes up to the gap. -/
theorem Ordered.opened {side : Side} {front back : List Lexeme} {text : List Char}
    (h : Ordered side (front ++ ⟨none, text⟩ :: back)) :
    (∀ c ∈ text, isGapChar c = true) ∧ Ordered .inside back ∧
      ((side = .inside ∧ ∀ x ∈ front, x.IsInner) ∨
        ∃ before kind name mid, front = before ++ ⟨some kind, name⟩ :: mid ∧
          kind.opensTag = true ∧ ∀ x ∈ mid, x.IsInner) := by
  induction front generalizing side with
  | nil =>
    cases h with
    | inner hx hrest => exact ⟨hx, hrest, .inl ⟨rfl, List.forall_mem_nil _⟩⟩
  | cons x front ih =>
    -- Wherever the tag is opened further on, the lexeme stands in front of it.
    have hlater : (∃ before kind name mid, front = before ++ ⟨some kind, name⟩ :: mid ∧
          kind.opensTag = true ∧ ∀ x ∈ mid, x.IsInner) →
        ∃ before kind name mid, x :: front = before ++ ⟨some kind, name⟩ :: mid ∧
          kind.opensTag = true ∧ ∀ x ∈ mid, x.IsInner := by
      rintro ⟨before, kind, name, mid, rfl, hkind, hmid⟩
      exact ⟨x :: before, kind, name, mid, rfl, hkind, hmid⟩
    cases h with
    | lone _ _ hrest =>
      obtain ⟨htext, hback, ⟨hside, -⟩ | hopen⟩ := ih hrest
      · cases hside
      · exact ⟨htext, hback, .inr (hlater hopen)⟩
    | opening hkind hrest =>
      obtain ⟨htext, hback, ⟨-, hmid⟩ | hopen⟩ := ih hrest
      · exact ⟨htext, hback, .inr ⟨[], _, _, front, rfl, hkind, hmid⟩⟩
      · exact ⟨htext, hback, .inr (hlater hopen)⟩
    | inner hx hrest =>
      obtain ⟨htext, hback, ⟨-, hmid⟩ | hopen⟩ := ih hrest
      · exact ⟨htext, hback, .inl ⟨rfl, List.forall_mem_cons.mpr ⟨hx, hmid⟩⟩⟩
      · exact ⟨htext, hback, .inr (hlater hopen)⟩
    | closing _ hrest =>
      obtain ⟨htext, hback, ⟨hside, -⟩ | hopen⟩ := ih hrest
      · cases hside
      · exact ⟨htext, hback, .inr (hlater hopen)⟩

/-- From inside a tag on there are only inner lexemes up to what closes it, or to the end. -/
theorem Ordered.closed {l : List Lexeme} (h : Ordered .inside l) :
    ∃ mid rest, l = mid ++ rest ∧ (∀ x ∈ mid, x.IsInner) ∧
      (rest = [] ∨ ∃ kind text more, rest = ⟨some kind, text⟩ :: more ∧ kind.closesTag = true) := by
  induction l with
  | nil => exact ⟨[], [], rfl, List.forall_mem_nil _, .inl rfl⟩
  | cons x l ih =>
    cases h with
    | inner hx hrest =>
      obtain ⟨mid, rest, rfl, hmid, hend⟩ := ih hrest
      exact ⟨x :: mid, rest, rfl, List.forall_mem_cons.mpr ⟨hx, hmid⟩, hend⟩
    | closing hkind _ =>
      exact ⟨[], _, rfl, List.forall_mem_nil _, .inr ⟨_, _, _, rfl, hkind⟩⟩

/-! ## From lexemes to tokens -/

/-- **Tokens are the lexemes that have a kind**, each behind the lexemes in front of it. -/
theorem mem_tokensFrom {o : Nat} {l : List Lexeme} {t : Token} :
    t ∈ tokensFrom o l ↔ ∃ front kind text back, l = front ++ ⟨some kind, text⟩ :: back ∧
      t = ⟨kind, String.ofList text,
        ⟨o + Utf8.size (flat front), o + Utf8.size (flat front) + Utf8.size text⟩⟩ := by
  constructor
  · intro ht
    induction l generalizing o with
    | nil => cases ht
    | cons x l ih =>
      have hbehind : t ∈ tokensFrom (o + Utf8.size x.text) l →
          ∃ front kind text back, x :: l = front ++ ⟨some kind, text⟩ :: back ∧
            t = ⟨kind, String.ofList text,
              ⟨o + Utf8.size (flat front), o + Utf8.size (flat front) + Utf8.size text⟩⟩ := by
        intro ht
        obtain ⟨front, kind, text, back, rfl, rfl⟩ := ih ht
        refine ⟨x :: front, kind, text, back, rfl, ?_⟩
        rw [flat_cons, Utf8.size_append, ← Nat.add_assoc]
      obtain ⟨kind, text⟩ := x
      cases kind with
      | none => exact hbehind ht
      | some kind =>
        rcases List.mem_cons.mp ht with rfl | ht
        · exact ⟨[], kind, text, l, rfl, rfl⟩
        · exact hbehind ht
  · rintro ⟨front, kind, text, back, rfl, rfl⟩
    rw [tokensFrom_append]
    exact List.mem_append_right _ (List.mem_cons_self ..)

/-- Lexemes inside a tag give inner tokens. -/
theorem isInner_kind_of_mem {o : Nat} {l : List Lexeme} (h : ∀ x ∈ l, x.IsInner) :
    ∀ t ∈ tokensFrom o l, t.kind.isInner = true := by
  intro t ht
  obtain ⟨front, kind, text, back, rfl, rfl⟩ := mem_tokensFrom.mp ht
  exact h ⟨some kind, text⟩ (List.mem_append_right _ (List.mem_cons_self ..))

end Stencil.Markup
