import Stencil.Markup.Tree
import Stencil.Proofs.Text.Search

/-!
# Where tokens and events stand

Tokens stand in the source one behind the other, and none is empty. Both ends of a token are ends
of characters, since a token begins where the characters in front of it end. An event takes up the
tokens of its group, so that events stand one behind the other as well, and the attributes of a
start tag stand in the tag one behind the other.

The offsets at which a span may begin and end are a parameter throughout. For the tokens of a
source they are the boundaries of its characters.

## Main definitions

* `Span.Sound`: a span that is not empty, with both ends among the given offsets
* `Laid`: spans one behind the other between two offsets
* `Event.Placed`, `EventsPlaced`: events one behind the other between two offsets
* `IsBoundary`: the offsets of a source at which a character begins or ends

## Main results

* `laid_append`: spans behind others
* `ne_nil_of_mem_scan`: no lexeme is empty
* `laid_tokenize`: **the tokens of a source stand one behind the other, at boundaries of
  characters**
* `laid_coverAll`: the span of a tag reaches from its first token to its last
* `eventsPlaced_eventsOf`: **the events of tokens that stand one behind the other do so as well**
-/

namespace Stencil

/-! ## Spans one behind the other -/

/-- A span that is not empty, with both ends among the given offsets. -/
structure Span.Sound (P : Nat → Prop) (s : Span) : Prop where
  lt : s.start < s.stop
  start : P s.start
  stop : P s.stop

/-- Spans one behind the other, from an offset up to another one. -/
def Laid (P : Nat → Prop) : Nat → List Span → Nat → Prop
  | lo, [], hi => lo ≤ hi
  | lo, s :: rest, hi => lo ≤ s.start ∧ s.Sound P ∧ Laid P s.stop rest hi

section Laid

variable {P : Nat → Prop} {lo hi lo' hi' : Nat} {s s' : Span} {l l' : List Span}

theorem Laid.le (h : Laid P lo l hi) : lo ≤ hi := by
  induction l generalizing lo with
  | nil => exact h
  | cons s l ih =>
    obtain ⟨hlo, hs, hrest⟩ := h
    have := hs.lt
    have := ih hrest
    omega

theorem Laid.mono (h : Laid P lo l hi) (hlo : lo' ≤ lo) (hhi : hi ≤ hi') : Laid P lo' l hi' := by
  induction l generalizing lo lo' with
  | nil => exact hlo.trans (h.trans hhi)
  | cons s l ih =>
    obtain ⟨hs, hsound, hrest⟩ := h
    exact ⟨hlo.trans hs, hsound, ih hrest le_rfl⟩

/-- Spans behind others begin where those end. -/
theorem laid_append : Laid P lo (l ++ l') hi ↔ ∃ mid, Laid P lo l mid ∧ Laid P mid l' hi := by
  induction l generalizing lo with
  | nil =>
    constructor
    · intro h
      exact ⟨lo, le_rfl, h⟩
    · rintro ⟨mid, hlo, h⟩
      exact h.mono hlo le_rfl
  | cons s l ih =>
    constructor
    · rintro ⟨hlo, hs, h⟩
      obtain ⟨mid, h₁, h₂⟩ := ih.mp h
      exact ⟨mid, ⟨hlo, hs, h₁⟩, h₂⟩
    · rintro ⟨mid, ⟨hlo, hs, h₁⟩, h₂⟩
      exact ⟨hlo, hs, ih.mpr ⟨mid, h₁, h₂⟩⟩

theorem laid_singleton : Laid P lo [s] hi ↔ lo ≤ s.start ∧ s.Sound P ∧ s.stop ≤ hi :=
  Iff.rfl

/-- Some of the spans, in the same order. -/
theorem Laid.sublist (h : Laid P lo l hi) (hl : l'.Sublist l) : Laid P lo l' hi := by
  induction hl generalizing lo with
  | slnil => exact h
  | cons s _ ih =>
    obtain ⟨hlo, hs, hrest⟩ := h
    exact (ih hrest).mono (hlo.trans hs.lt.le) le_rfl
  | cons_cons s _ ih =>
    obtain ⟨hlo, hs, hrest⟩ := h
    exact ⟨hlo, hs, ih hrest⟩

theorem Laid.of_mem (h : Laid P lo l hi) (hs : s ∈ l) :
    lo ≤ s.start ∧ s.Sound P ∧ s.stop ≤ hi :=
  laid_singleton.mp (h.sublist (List.singleton_sublist.mpr hs))

theorem Laid.pairwise (h : Laid P lo l hi) : l.Pairwise fun a b => a.stop ≤ b.start := by
  induction l generalizing lo with
  | nil => exact .nil
  | cons s l ih =>
    obtain ⟨-, -, hrest⟩ := h
    exact .cons (fun b hb => (hrest.of_mem hb).1) (ih hrest)

/-- A span that covers another one behind it. -/
theorem Span.cover_eq (h : s.start < s.stop) (h' : s'.start < s'.stop) (hle : s.stop ≤ s'.start) :
    s.cover s' = ⟨s.start, s'.stop⟩ := by
  have hmin : min s.start s'.start = s.start := by omega
  have hmax : max s.stop s'.stop = s'.stop := by omega
  rw [Span.cover, hmin, hmax]

/-- Two spans in a row taken as one. -/
theorem Laid.cover (h : Laid P lo (s :: s' :: l) hi) : Laid P lo (s.cover s' :: l) hi := by
  obtain ⟨hlo, hs, hle, hs', hrest⟩ := h
  rw [Span.cover_eq hs.lt hs'.lt hle]
  refine ⟨hlo, ?_, hrest⟩
  exact { lt := hs.lt.trans (hle.trans_lt hs'.lt), start := hs.start, stop := hs'.stop }

end Laid

namespace Markup

open Stencil.Text

/-! ## Lexemes are not empty -/

theorem ne_nil_of_mem_lexemeOf {kind : Option TokenKind} {text : List Char} :
    ∀ x ∈ lexemeOf kind text, x.text ≠ [] := by
  unfold lexemeOf
  split
  · simp
  · rename_i h
    simpa using h

/-- A value without quotes is not empty: it begins with a character that neither separates nor ends
the tag. -/
theorem takeWhile_bareValue_ne_nil {s : List Char}
    (h : beginsBareValue (s.dropWhile isSeparator) = true) :
    (s.dropWhile isSeparator).takeWhile isBareValueChar ≠ [] := by
  cases hs : s.dropWhile isSeparator with
  | nil =>
    rw [hs] at h
    cases h
  | cons c rest =>
    rw [hs] at h
    have hbare : isBareValueChar c = true := by
      simp only [beginsBareValue, Bool.not_eq_true', Bool.or_eq_false_iff] at h
      simp [isBareValueChar, Text.head_dropWhile hs, h.2]
    rw [List.takeWhile_cons_of_pos hbare]
    exact List.cons_ne_nil _ _

theorem ne_nil_of_mem_tagPiece (c : Char) (rest : List Char) :
    ∀ x ∈ (tagPiece c rest).1, x.text ≠ [] := by
  unfold tagPiece
  split
  · simp
  split
  · dsimp only [equalsPiece]
    split
    · rename_i h
      intro x hx
      simp only [List.mem_cons, List.mem_append, List.not_mem_nil, or_false] at hx
      rcases hx with rfl | hx | rfl
      · exact List.cons_ne_nil _ _
      · exact ne_nil_of_mem_lexemeOf x hx
      · exact takeWhile_bareValue_ne_nil h
    · simp
  split
  · unfold quotePiece
    split <;> simp
  split
  · dsimp only [bracketPiece]
    split <;> simp
  split <;> simp

theorem ne_nil_of_mem_scanTag (s : List Char) : ∀ x ∈ (scanTag s).lexemes, x.text ≠ [] := by
  fun_induction scanTag s with
  | case1 => simp
  | case2 => simp
  | case3 => simp
  | case4 c rest _ _ piece more ih =>
    intro x hx
    rcases List.mem_append.mp hx with hx | hx
    · exact ne_nil_of_mem_tagPiece c rest x hx
    · exact ih x hx

theorem ne_nil_of_mem_tagConstruct (kind : TokenKind) {opener : List Char} (h : opener ≠ [])
    (s : List Char) : ∀ x ∈ (tagConstruct kind opener s).1, x.text ≠ [] := by
  have hhead : ∀ x ∈ (⟨some kind, opener ++ s.takeWhile isTagNameChar⟩ : Lexeme)
      :: (scanTag (s.dropWhile isTagNameChar)).lexemes, x.text ≠ [] := by
    intro x hx
    rcases List.mem_cons.mp hx with rfl | hx
    · simp [h]
    · exact ne_nil_of_mem_scanTag _ x hx
  dsimp only [tagConstruct]
  split
  · intro x hx
    rcases List.mem_append.mp hx with hx | hx
    · exact hhead x hx
    · exact ne_nil_of_mem_lexemeOf x hx
  · exact hhead

theorem ne_nil_of_mem_construct {s : List Char} (h : s ≠ []) :
    ∀ x ∈ (construct s).1, x.text ≠ [] := by
  unfold construct
  iterate 4 (split; · simp [delimited, h])
  split <;> exact ne_nil_of_mem_tagConstruct _ (by simp [h]) _

/-- **No lexeme is empty.** -/
theorem ne_nil_of_mem_scan (s : List Char) : ∀ x ∈ scan s, x.text ≠ [] := by
  fun_induction scan s with
  | case1 => simp
  | case2 c rest _ ih =>
    intro x hx
    rcases List.mem_append.mp hx with hx | hx
    · exact ne_nil_of_mem_construct (List.cons_ne_nil c rest) x hx
    · exact ih x hx
  | case3 c rest _ run ih =>
    intro x hx
    rcases List.mem_cons.mp hx with rfl | hx
    · exact List.cons_ne_nil _ _
    · exact ih x hx

/-! ## Tokens one behind the other -/

variable {P : Nat → Prop} {lo hi : Nat}

/-- Tokens stand one behind the other, wherever the ends of their lexemes are among the given
offsets. -/
theorem laid_tokensFrom {l : List Lexeme} (hl : ∀ x ∈ l, x.text ≠ []) (o : Nat)
    (hP : ∀ front, front <+: flat l → P (o + Utf8.size front)) :
    Laid P o ((tokensFrom o l).map (·.span)) (o + Utf8.size (flat l)) := by
  induction l generalizing o with
  | nil => exact le_rfl
  | cons x l ih =>
    obtain ⟨kind, text⟩ := x
    have hpos : 0 < Utf8.size text := Utf8.size_pos (hl _ (List.mem_cons_self ..))
    have hsound : Span.Sound P ⟨o, o + Utf8.size text⟩ :=
      { lt := Nat.lt_add_of_pos_right hpos
        start := hP [] List.nil_prefix
        stop := hP text (List.prefix_append _ _) }
    have hrest := ih (fun y hy => hl y (List.mem_cons_of_mem _ hy)) (o + Utf8.size text) (by
      intro front hfront
      have := hP (text ++ front) ((List.prefix_append_right_inj text).mpr hfront)
      rwa [Utf8.size_append, ← Nat.add_assoc] at this)
    rw [flat_cons, Utf8.size_append, ← Nat.add_assoc]
    cases kind with
    | none =>
      exact hrest.mono (Nat.le_add_right ..) le_rfl
    | some kind => exact ⟨le_rfl, hsound, hrest⟩

/-- The offsets of a source at which a character begins or ends. -/
def IsBoundary (source : String) (o : Nat) : Prop :=
  String.Pos.Raw.IsValid source ⟨o⟩

theorem utf8ByteSize_ofList (s : List Char) : (String.ofList s).utf8ByteSize = Utf8.size s := by
  induction s with
  | nil => rfl
  | cons c s ih => rw [String.ofList_cons, String.utf8ByteSize_append, ih]; simp

/-- The characters in front of an offset end at a boundary. -/
theorem isBoundary_size {source : String} {front : List Char} (h : front <+: source.toList) :
    IsBoundary source (Utf8.size front) := by
  obtain ⟨rest, h⟩ := h
  refine String.Pos.Raw.isValid_iff_exists_append.mpr
    ⟨String.ofList front, String.ofList rest, ?_, ?_⟩
  · rw [← String.ofList_append, h, String.ofList_toList]
  · rw [← utf8ByteSize_ofList]
    rfl

/-- **The tokens of a source stand one behind the other, at boundaries of characters.** -/
theorem laid_tokenize (source : String) :
    Laid (IsBoundary source) 0 ((tokenize source).map (·.span)) source.utf8ByteSize := by
  have h := laid_tokensFrom (P := IsBoundary source) (ne_nil_of_mem_scan source.toList) 0 (by
    intro front hfront
    rw [Nat.zero_add]
    exact isBoundary_size (flat_scan source.toList ▸ hfront))
  rwa [flat_scan, Nat.zero_add, ← utf8ByteSize_ofList, String.ofList_toList] at h

/-! ## The tokens of a tag -/

/-- The span that covers a span and the tokens behind it reaches to the last of them. -/
theorem laid_coverAll {s : Span} (hs : s.Sound P) {ts : List Token}
    (h : Laid P s.stop (ts.map (·.span)) hi) :
    ∃ stop, coverAll s ts = ⟨s.start, stop⟩ ∧ P stop ∧ Laid P s.stop (ts.map (·.span)) stop ∧
      stop ≤ hi := by
  induction ts generalizing s with
  | nil => exact ⟨s.stop, rfl, hs.stop, le_rfl, h⟩
  | cons t ts ih =>
    obtain ⟨hle, ht, hrest⟩ := h
    have hcover : s.cover t.span = ⟨s.start, t.span.stop⟩ := Span.cover_eq hs.lt ht.lt hle
    have hs' : Span.Sound P ⟨s.start, t.span.stop⟩ :=
      { lt := hs.lt.trans (hle.trans_lt ht.lt)
        start := hs.start
        stop := ht.stop }
    obtain ⟨stop, hall, hP, hlaid, hstop⟩ := ih hs' hrest
    refine ⟨stop, ?_, hP, ⟨hle, ht, hlaid⟩, hstop⟩
    rw [coverAll, List.foldl_cons, hcover]
    exact hall

/-- What belongs to a tag behind its name. -/
def TokenKind.isTagPart (k : TokenKind) : Bool :=
  k.isSkipped || k = .tagEnd

theorem TokenKind.isTagPart_of_isSkipped {k : TokenKind} (h : k.isSkipped = true) :
    k.isTagPart = true := by
  rw [isTagPart, h, Bool.true_or]

theorem TokenKind.isSkipped_of_isInner {k : TokenKind} (h : k.isInner = true) :
    k.isSkipped = true := by
  rw [isSkipped, h, Bool.true_or]

/-- How a start tag is made of the tokens behind its name: those of the tag, among them its inner
ones, and its body. -/
structure StartTag.MadeOf (s : StartTag) (t : Token) (inner parts : List Token) : Prop where
  inner_prefix : inner <+: parts
  isTagPart : ∀ x ∈ parts, x.kind.isTagPart = true
  span : s.tag.span = coverAll t.span parts
  attributes : s.tag.attributes = firstOfEachName (attributesOf (itemsOf inner))
  strays : s.strays = straysOf (itemsOf inner)
  body : ∀ x ∈ s.body, x.kind = .rawText ∧ s.ending = .bracket ∧ isRawText s.tag.name = true

theorem endingOf_append (l : List Token) :
    (endingOf l).2.1 ++ (endingOf l).2.2 = l ∧
      ∀ x ∈ (endingOf l).2.1, x.kind.isTagPart = true := by
  unfold endingOf
  split
  · split
    · rename_i h
      simp [TokenKind.isTagPart, h]
    split
    · rename_i h
      simp [TokenKind.isTagPart, TokenKind.isSkipped, h]
    · simp
  · simp

theorem bodyOf_append (name : String) (ending : Ending) (l : List Token) :
    (bodyOf name ending l).1.toList ++ (bodyOf name ending l).2 = l ∧
      ∀ x ∈ (bodyOf name ending l).1,
        x.kind = .rawText ∧ ending = .bracket ∧ isRawText name = true := by
  unfold bodyOf
  split
  · split
    · rename_i h
      simp only [Bool.and_eq_true, decide_eq_true_eq] at h
      simp [h]
    · simp
  · simp

/-- **A start tag takes up the tokens of the tag and its body**, and loses none. -/
theorem startTagOf_madeOf (t : Token) (rest : List Token) :
    ∃ inner parts, (startTagOf t rest).1.MadeOf t inner parts ∧
      rest = parts ++ ((startTagOf t rest).1.body.toList ++ (startTagOf t rest).2) := by
  obtain ⟨hending, hparts⟩ := endingOf_append (rest.dropWhile (·.kind.isInner))
  obtain ⟨hbody, hraw⟩ := bodyOf_append (lowercase (String.ofList (t.text.toList.drop 1)))
    (endingOf (rest.dropWhile (·.kind.isInner))).1
    (endingOf (rest.dropWhile (·.kind.isInner))).2.2
  refine ⟨rest.takeWhile (·.kind.isInner),
    rest.takeWhile (·.kind.isInner) ++ (endingOf (rest.dropWhile (·.kind.isInner))).2.1, ?_, ?_⟩
  · refine ⟨List.prefix_append _ _, ?_, rfl, rfl, rfl, hraw⟩
    intro x hx
    rcases List.mem_append.mp hx with hx | hx
    · have hinner : x.kind.isInner = true :=
        List.mem_takeWhile_imp (p := fun x : Token => x.kind.isInner) hx
      exact TokenKind.isTagPart_of_isSkipped (TokenKind.isSkipped_of_isInner hinner)
    · exact hparts x hx
  · show rest = _ ++ (Option.toList (bodyOf _ _ _).1 ++ (bodyOf _ _ _).2)
    rw [hbody, List.append_assoc, hending, List.takeWhile_append_dropWhile]

/-- **An end tag takes up the tokens of the tag**, and loses none. -/
theorem endTagOf_madeOf (t : Token) (rest : List Token) :
    ∃ parts, (∀ x ∈ parts, x.kind.isTagPart = true) ∧
      (endTagOf t rest).1.span = coverAll t.span parts ∧ rest = parts ++ (endTagOf t rest).2 := by
  have hskipped : ∀ x ∈ rest.takeWhile (·.kind.isSkipped), x.kind.isTagPart = true := by
    intro x hx
    have hskip : x.kind.isSkipped = true :=
      List.mem_takeWhile_imp (p := fun x : Token => x.kind.isSkipped) hx
    exact TokenKind.isTagPart_of_isSkipped hskip
  have hrest := List.takeWhile_append_dropWhile (p := fun x : Token => x.kind.isSkipped) (l := rest)
  dsimp only [endTagOf]
  split
  · rename_i close after hdrop
    rw [hdrop] at hrest
    split
    · rename_i hclose
      refine ⟨rest.takeWhile (·.kind.isSkipped) ++ [close], ?_, ?_, ?_⟩
      · intro x hx
        rcases List.mem_append.mp hx with hx | hx
        · exact hskipped x hx
        · rw [List.mem_singleton.mp hx, TokenKind.isTagPart, hclose]
          rfl
      · rw [coverAll, coverAll, List.foldl_append]
        rfl
      · rw [List.append_assoc]
        exact hrest.symm
    · exact ⟨_, hskipped, rfl, hrest.symm⟩
  · rename_i hdrop
    rw [hdrop] at hrest
    exact ⟨_, hskipped, rfl, hrest.symm⟩

/-- What a start tag leaves is the end of what was there. -/
theorem startTagOf_suffix (t : Token) (rest : List Token) :
    (startTagOf t rest).2 <:+ t :: rest := by
  obtain ⟨inner, parts, -, hrest⟩ := startTagOf_madeOf t rest
  refine ⟨t :: (parts ++ (startTagOf t rest).1.body.toList), ?_⟩
  rw [List.cons_append, List.append_assoc, ← hrest]

/-- What an end tag leaves is the end of what was there. -/
theorem endTagOf_suffix (t : Token) (rest : List Token) : (endTagOf t rest).2 <:+ t :: rest := by
  obtain ⟨parts, -, -, hrest⟩ := endTagOf_madeOf t rest
  refine ⟨t :: parts, ?_⟩
  rw [List.cons_append, ← hrest]

/-! ## The parts of a start tag -/

/-- The place of a part of a start tag. -/
def TagItem.span : TagItem → Span
  | .attribute a => a.span
  | .stray t => t.span

/-- The parts of a start tag stand one behind the other if its tokens do. -/
theorem laid_itemsOf {ts : List Token} (h : Laid P lo (ts.map (·.span)) hi) :
    Laid P lo ((itemsOf ts).map TagItem.span) hi := by
  fun_induction itemsOf ts generalizing lo with
  | case1 => exact h
  | case2 t rest _ ih =>
    obtain ⟨hlo, ht, hrest⟩ := h
    exact ⟨hlo, ht, ih hrest⟩
  | case3 t _ => exact h
  | case4 t _ e rest _ ih =>
    obtain ⟨hlo, ht, hrest⟩ := h
    exact ⟨hlo, ht, ih hrest⟩
  | case5 => exact h.cover
  | case6 t _ e _ v rest _ ih =>
    obtain ⟨hlo, hcover, hrest⟩ := h.cover
    exact ⟨hlo, hcover, ih hrest⟩
  | case7 t _ e _ v rest _ ih =>
    obtain ⟨hlo, hcover, hrest⟩ := h.cover.cover
    exact ⟨hlo, hcover, ih hrest⟩

theorem firstOfEachName_sublist (attributes : List Attribute) :
    (firstOfEachName attributes).Sublist attributes := by
  induction attributes with
  | nil => exact .slnil
  | cons a attributes ih =>
    rw [firstOfEachName]
    exact (List.filter_sublist.trans ih).cons_cons a

/-- What is picked out of the parts of a start tag, each with the place of its part. -/
theorem map_filterMap_sublist {α : Type} {pick : TagItem → Option α} {span : α → Span}
    (h : ∀ item x, pick item = some x → span x = item.span) (items : List TagItem) :
    ((items.filterMap pick).map span).Sublist (items.map TagItem.span) := by
  induction items with
  | nil => exact .slnil
  | cons item items ih =>
    cases hpick : pick item with
    | none =>
      rw [List.filterMap_cons_none hpick]
      exact ih.cons _
    | some x =>
      rw [List.filterMap_cons_some hpick, List.map_cons, List.map_cons, h item x hpick]
      exact ih.cons_cons _

theorem map_span_attributesOf_sublist (items : List TagItem) :
    ((attributesOf items).map (·.span)).Sublist (items.map TagItem.span) := by
  refine map_filterMap_sublist ?_ items
  rintro (a | t) x hx <;> cases hx
  rfl

theorem map_span_straysOf_sublist (items : List TagItem) :
    ((straysOf items).map (·.span)).Sublist (items.map TagItem.span) := by
  refine map_filterMap_sublist ?_ items
  rintro (a | t) x hx <;> cases hx
  rfl

/-! ## Events one behind the other -/

/-- The place of a start tag between two offsets: its attributes stand in it one behind the other,
and behind it its body, which only the tag of a raw-text element has that ends with a bracket. -/
structure StartTag.Placed (P : Nat → Prop) (lo : Nat) (s : StartTag) (hi : Nat) : Prop where
  tag : Laid P lo (s.tag.span :: s.body.toList.map (·.span)) hi
  body : s.body.isSome → s.ending = .bracket ∧ isRawText s.tag.name = true
  attributes : Laid P s.tag.span.start (s.tag.attributes.map (·.span)) s.tag.span.stop
  strays : ∀ t ∈ s.strays, t.span.Sound P

/-- The place of an event between two offsets. -/
def Event.Placed (P : Nat → Prop) (lo : Nat) (e : Event) (hi : Nat) : Prop :=
  match e with
  | .text _ span | .comment _ span _ | .other _ _ span => Laid P lo [span] hi
  | .start s => s.Placed P lo hi
  | .stop t => Laid P lo [t.span] hi

/-- Events one behind the other, from an offset up to another one. -/
def EventsPlaced (P : Nat → Prop) : Nat → List Event → Nat → Prop
  | lo, [], hi => lo ≤ hi
  | lo, e :: rest, hi => ∃ mid, e.Placed P lo mid ∧ EventsPlaced P mid rest hi

/-- A start tag stands where its tokens stand. -/
theorem placed_startTagOf {t : Token} {rest : List Token}
    (h : Laid P lo ((t :: rest).map (·.span)) hi) :
    ∃ mid, (startTagOf t rest).1.Placed P lo mid ∧
      Laid P mid ((startTagOf t rest).2.map (·.span)) hi := by
  obtain ⟨hlo, ht, hrest⟩ := h
  obtain ⟨inner, parts, hmade, htokens⟩ := startTagOf_madeOf t rest
  rw [htokens, List.map_append, List.map_append] at hrest
  obtain ⟨m₁, hparts, hbehind⟩ := laid_append.mp hrest
  obtain ⟨mid, hbody, hafter⟩ := laid_append.mp hbehind
  obtain ⟨stop, hcover, hP, hlaid, hstop⟩ := laid_coverAll ht hparts
  refine ⟨mid, ?_, hafter⟩
  -- The attributes and what is none are made of the inner tokens, which stand in the tag.
  have hitems : Laid P t.span.start ((itemsOf inner).map TagItem.span) stop := by
    apply laid_itemsOf
    refine Laid.sublist (hlaid.mono ht.lt.le le_rfl) ?_
    exact hmade.inner_prefix.sublist.map _
  have hspan : (startTagOf t rest).1.tag.span = ⟨t.span.start, stop⟩ := hmade.span.trans hcover
  constructor
  · rw [hspan]
    refine ⟨hlo, ⟨ht.lt.trans_le hlaid.le, ht.start, hP⟩, ?_⟩
    exact hbody.mono hstop le_rfl
  · intro hsome
    obtain ⟨x, hx⟩ := Option.isSome_iff_exists.mp hsome
    exact (hmade.body x hx).2
  · rw [hspan, hmade.attributes]
    refine hitems.sublist ?_
    exact ((firstOfEachName_sublist _).map _).trans (map_span_attributesOf_sublist _)
  · intro x hx
    rw [hmade.strays] at hx
    refine (hitems.of_mem ?_).2.1
    exact (map_span_straysOf_sublist _).subset (List.mem_map_of_mem hx)

/-- An end tag stands where its tokens stand. -/
theorem placed_endTagOf {t : Token} {rest : List Token}
    (h : Laid P lo ((t :: rest).map (·.span)) hi) :
    ∃ mid, Laid P lo [(endTagOf t rest).1.span] mid ∧
      Laid P mid ((endTagOf t rest).2.map (·.span)) hi := by
  obtain ⟨hlo, ht, hrest⟩ := h
  obtain ⟨parts, -, hspan, htokens⟩ := endTagOf_madeOf t rest
  rw [htokens, List.map_append] at hrest
  obtain ⟨mid, hparts, hafter⟩ := laid_append.mp hrest
  obtain ⟨stop, hcover, hP, hlaid, hstop⟩ := laid_coverAll ht hparts
  refine ⟨mid, ?_, hafter⟩
  rw [hspan, hcover]
  exact ⟨hlo, ⟨ht.lt.trans_le hlaid.le, ht.start, hP⟩, hstop⟩

/-- A leaf stands where its token stands. -/
theorem placed_of_leafOf {t : Token} {e : Event} (he : leafOf t = some e)
    (h : Laid P lo [t.span] hi) : e.Placed P lo hi := by
  unfold leafOf at he
  split at he <;> cases he <;> exact h

/-- **The events of tokens that stand one behind the other do so as well.** -/
theorem eventsPlaced_eventsOf {ts : List Token} (h : Laid P lo (ts.map (·.span)) hi) :
    EventsPlaced P lo (eventsOf ts) hi := by
  fun_induction eventsOf ts generalizing lo with
  | case1 => exact h
  | case2 t rest _ ih =>
    obtain ⟨mid, hstart, hrest⟩ := placed_startTagOf h
    exact ⟨mid, hstart, ih hrest⟩
  | case3 t rest _ _ ih =>
    obtain ⟨mid, hstop, hrest⟩ := placed_endTagOf h
    exact ⟨mid, hstop, ih hrest⟩
  | case4 t rest _ _ e he ih =>
    obtain ⟨hlo, ht, hrest⟩ := h
    exact ⟨t.span.stop, placed_of_leafOf he ⟨hlo, ht, le_rfl⟩, ih hrest⟩
  | case5 t rest _ _ _ ih =>
    obtain ⟨hlo, ht, hrest⟩ := h
    exact ih (hrest.mono (hlo.trans ht.lt.le) le_rfl)

end Markup

end Stencil
