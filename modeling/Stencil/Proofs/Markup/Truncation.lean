import Stencil.Proofs.Markup.Constructs
import Stencil.Proofs.Markup.Matching
import Stencil.Proofs.Markup.Reports

/-!
# Errors and where a source ends

A comment without its end and a tag without its closing bracket reach to the end of the source. So
there is one such construct at most, it is the last comment or the last tag, and its tokens are the
last ones. It is reported as an error.

An end tag that a slash and a bracket end is reported as an error as well, though nothing is cut
off: its slash and bracket are passed over like anything else behind its name, and then no bracket
follows. So the errors are those end tags, and one more if the source ends inside a comment or a
tag.

## Main definitions

* `lastIs`, `endsInComment`, `endsInTag`: whether the last construct of a kind is cut off
* `slashedEnds`: the number of end tags that a slash and a bracket end
* `Token.fault`, `faultsOf`: the errors among tokens
* `CommentEnds`, `TagsClose`: what stands behind comments and tags

## Main results

* `commentEnds_scan`, `Ordered.tagsClose`: what is behind the comments and tags of a source
* `faultsOf_eq_filterMap`: the errors of tokens are those of their events
* `count_faultsOf`: their number
* `errors_parse`: **errors are slashed end tags and what the end of the source cuts off**
-/

namespace Stencil.Markup

open Stencil.Text
open Diagnostic (Kind errorCount)

/-! ## What is cut off -/

/-- Whether the last token of some kinds has a property with those behind it. -/
def lastIs (p : TokenKind → Bool) (q : Token → List Token → Bool) : List Token → Bool
  | [] => false
  | t :: rest => if p t.kind && !rest.any (p ·.kind) then q t rest else lastIs p q rest

/-- Whether a comment has its end behind its beginning. -/
def Token.endsComment (t : Token) : Bool :=
  ['-', '-', '>'] <:+: t.text.toList.drop 4

/-- Whether the last comment has no end. -/
def endsInComment (ts : List Token) : Bool :=
  lastIs (fun kind => kind = .comment) (fun t _ => !t.endsComment) ts

/-- Whether the last start or end tag has neither of the tokens that end a tag. -/
def endsInTag (ts : List Token) : Bool :=
  lastIs TokenKind.opensTag (fun _ rest => !rest.any (·.kind.closesTag)) ts

/-- The number of end tags that a slash and a bracket end. -/
def slashedEnds : List Token → Nat
  | [] => 0
  | t :: rest =>
    slashedEnds rest +
      (t.kind = .endTag && (rest.find? (·.kind.closesTag)).any (·.kind = .tagSelfClose)).toNat

section LastIs

variable {p : TokenKind → Bool} {q : Token → List Token → Bool} {t : Token} {ts rest : List Token}

theorem lastIs_of_any (h : ts.any (p ·.kind) = false) : lastIs p q ts = false := by
  induction ts with
  | nil => rfl
  | cons t ts ih =>
    rw [List.any_cons, Bool.or_eq_false_iff] at h
    rw [lastIs, h.1, Bool.false_and, if_neg Bool.false_ne_true, ih h.2]

/-- A token in front of others, if none of these kinds stands behind one with the property. -/
theorem lastIs_cons (h : p t.kind = true → q t rest = true → rest.any (p ·.kind) = false) :
    (lastIs p q (t :: rest)).toNat = (lastIs p q rest).toNat + (p t.kind && q t rest).toNat := by
  rw [lastIs]
  cases hp : p t.kind with
  | false => simp
  | true =>
    cases hrest : rest.any (p ·.kind) with
    | false => simp [lastIs_of_any hrest]
    | true =>
      -- Another one of these kinds is behind it, so that it does not have the property.
      have hq : q t rest = false := by
        rw [Bool.eq_false_iff]
        intro hq
        rw [h hp hq] at hrest
        cases hrest
      simp [hq]

theorem exists_of_lastIs (h : lastIs p q ts = true) :
    ∃ front t back, ts = front ++ t :: back ∧ p t.kind = true ∧ q t back = true := by
  induction ts with
  | nil => cases h
  | cons t ts ih =>
    rw [lastIs] at h
    split at h
    · rename_i hp
      exact ⟨[], t, ts, rfl, (Bool.and_eq_true _ _ ▸ hp).1, h⟩
    · obtain ⟨front, x, back, rfl, hx⟩ := ih h
      exact ⟨t :: front, x, back, rfl, hx⟩

end LastIs

/-! ## What stands behind comments and tags -/

/-- A comment is taken for cut off exactly if it has no end, and then nothing stands behind it. -/
def CommentEnds (t : Token) (rest : List Token) : Prop :=
  (commentBody t.text.toList).2 = t.endsComment ∧ (t.endsComment = false → rest = [])

/-- **The comments of a source** have an end, or they reach to its end. -/
theorem commentEnds_scan (o : Nat) (s : List Char) :
    ForTokens (fun kind => kind = .comment) CommentEnds (tokensFrom o (scan s)) := by
  refine forTokens_scan rfl ?_ o s
  intro o s text more hbegins hcons
  obtain ⟨body, rfl, rfl, hrest⟩ := construct_of_comment hbegins hcons
  have hdrop : (String.ofList ('<' :: '!' :: '-' :: '-' ::
      (breakPast ['-', '-', '>'] body).1)).toList.drop 4 = (breakPast ['-', '-', '>'] body).1 := by
    rw [String.toList_ofList]
    rfl
  rw [CommentEnds, Token.endsComment, commentBody, hdrop]
  rcases breakPast_cases (t := ['-', '-', '>']) (by decide) body with ⟨u, hu⟩ | ⟨hcut, hnone⟩
  · rw [hu, if_pos (List.isSuffixOf_iff_suffix.mpr (List.suffix_append u _))]
    have hinfix : ['-', '-', '>'] <:+: u ++ ['-', '-', '>'] := (List.suffix_append u _).isInfix
    exact ⟨(decide_eq_true hinfix).symm, fun h => absurd hinfix (of_decide_eq_false h)⟩
  · rw [hrest, hcut, if_neg (fun h => hnone (List.isSuffixOf_iff_suffix.mp h).isInfix), scan]
    exact ⟨(decide_eq_false hnone).symm, fun _ => rfl⟩

/-- What ends a tag has nothing of a tag behind it. -/
def TagsClose (ts : List Token) : Prop :=
  ForTokens TokenKind.closesTag (fun _ rest => ∀ x ∈ rest.head?, x.kind.isTagPart = false) ts

theorem TokenKind.isTagPart_of_isLone {kind : TokenKind} (h : kind.isLone = true) :
    kind.isTagPart = false := by
  revert h
  cases kind <;> decide

theorem TokenKind.isTagPart_of_opensTag {kind : TokenKind} (h : kind.opensTag = true) :
    kind.isTagPart = false := by
  revert h
  cases kind <;> decide

theorem TokenKind.closesTag_of_isTagPart {kind : TokenKind} (h : kind.isTagPart = false) :
    kind.closesTag = false := by
  rw [Bool.eq_false_iff]
  intro hcloses
  rw [isTagPart_of_closesTag hcloses] at h
  cases h

/-- Between tags there is no part of a tag. -/
theorem Ordered.isTagPart_head? {l : List Lexeme} (h : Ordered .between l) (o : Nat) :
    ∀ x ∈ (tokensFrom o l).head?, x.kind.isTagPart = false := by
  cases h with
  | done =>
    intro x hx
    cases hx
  | lone hkind =>
    rintro x ⟨⟩
    exact TokenKind.isTagPart_of_isLone hkind
  | opening hkind =>
    rintro x ⟨⟩
    exact TokenKind.isTagPart_of_opensTag hkind

/-- Lexemes in order give tokens in which nothing of a tag stands behind its end. -/
theorem Ordered.tagsClose {side : Side} {l : List Lexeme} (h : Ordered side l) (o : Nat) :
    TagsClose (tokensFrom o l) := by
  induction h generalizing o with
  | done => exact forTokens_nil
  | lone hkind _ _ ih =>
    apply (ih _).cons_of_neg
    exact TokenKind.closesTag_of_isTagPart (TokenKind.isTagPart_of_isLone hkind)
  | opening hkind _ ih =>
    apply (ih _).cons_of_neg
    exact TokenKind.closesTag_of_isTagPart (TokenKind.isTagPart_of_opensTag hkind)
  | @inner x l hx _ ih =>
    obtain ⟨kind, text⟩ := x
    cases kind with
    | none => exact ih _
    | some kind => exact (ih _).cons_of_neg (TokenKind.closesTag_of_isInner hx)
  | closing _ hrest ih => exact (ih _).cons fun _ => hrest.isTagPart_head? _

/-! ## The errors of tokens -/

/-- The error that a comment or a tag is reported as, by its first token and those behind it. -/
def Token.fault (t : Token) (rest : List Token) : Option Kind :=
  match t.kind with
  | .comment => if t.endsComment then none else some .unterminatedComment
  | .startTag => if rest.any (·.kind.closesTag) then none else some .unterminatedTag
  | .endTag =>
    if (rest.find? (·.kind.closesTag)).any (·.kind = .tagEnd) then none else some .unterminatedTag
  | _ => none

/-- The errors that tokens are reported as. -/
def faultsOf : List Token → List Kind
  | [] => []
  | t :: rest => (t.fault rest).toList ++ faultsOf rest

theorem Token.fault_eq_none {t : Token} (hcomment : t.kind ≠ .comment)
    (hopens : t.kind.opensTag = false) (rest : List Token) : t.fault rest = none := by
  rw [fault]
  split <;> simp_all [TokenKind.opensTag]

/-- The parts of tags and the bodies of raw-text elements are no errors. -/
theorem faultsOf_append {front : List Token}
    (h : ∀ x ∈ front, x.kind.isTagPart = true ∨ x.kind = .rawText) (rest : List Token) :
    faultsOf (front ++ rest) = faultsOf rest := by
  induction front with
  | nil => rfl
  | cons x front ih =>
    obtain ⟨hx, hfront⟩ := List.forall_mem_cons.mp h
    have hnone : x.fault (front ++ rest) = none := by
      rcases hx with hx | hx
      · apply Token.fault_eq_none
        · intro hkind
          rw [hkind] at hx
          cases hx
        · exact TokenKind.opensTag_of_isTagPart hx
      · apply Token.fault_eq_none <;> rw [hx] <;> decide
    rw [List.cons_append, faultsOf, hnone, ih hfront]
    rfl

theorem faultsOf_startTagOf (t : Token) (rest : List Token) :
    faultsOf rest = faultsOf (startTagOf t rest).2 := by
  obtain ⟨inner, parts, hmade, hrest⟩ := startTagOf_madeOf t rest
  conv_lhs => rw [hrest]
  rw [faultsOf_append, faultsOf_append]
  · intro x hx
    exact .inr (hmade.body x (Option.mem_toList.mp hx)).1
  · intro x hx
    exact .inl (hmade.isTagPart x hx)

theorem faultsOf_endTagOf (t : Token) (rest : List Token) :
    faultsOf rest = faultsOf (endTagOf t rest).2 := by
  obtain ⟨parts, hparts, -, hrest⟩ := endTagOf_madeOf t rest
  conv_lhs => rw [hrest]
  apply faultsOf_append
  intro x hx
  exact .inl (hparts x hx)

theorem any_closesTag (rest : List Token) :
    rest.any (·.kind.closesTag) = (rest.find? (·.kind.closesTag)).isSome := by
  rw [Bool.eq_iff_iff, List.any_eq_true, List.find?_isSome]

/-- A start tag is taken for cut off if no token behind it ends a tag. -/
theorem fault_startTagOf {t : Token} {rest : List Token} (ht : t.kind = .startTag)
    (hends : TagsEnd (t :: rest)) : (Event.start (startTagOf t rest).1).fault = t.fault rest := by
  have h := hends t rest List.suffix_rfl (by rw [ht]; rfl)
  have hending : (startTagOf t rest).1.ending =
      (endingOf (rest.dropWhile (·.kind.isInner))).1 := rfl
  rw [Token.fault, ht, Event.fault, hending]
  dsimp only
  rw [any_closesTag, find?_closesTag_eq_head? h]
  cases hdrop : rest.dropWhile (·.kind.isInner) with
  | nil => rfl
  | cons x after =>
    rw [hdrop] at h
    rcases TokenKind.closesTag_iff.mp (h x rfl) with hkind | hkind <;> simp [endingOf, hkind]

/-- What is skipped behind the name of an end tag goes on to its bracket, or beyond its end. -/
theorem dropWhile_isSkipped {rest : List Token}
    (hends : ∀ x ∈ (rest.dropWhile (·.kind.isInner)).head?, x.kind.closesTag = true)
    (hcloses : TagsClose rest) :
    ((rest.dropWhile (·.kind.isSkipped)).head?).any (·.kind = .tagEnd) =
      (rest.find? (·.kind.closesTag)).any (·.kind = .tagEnd) := by
  have hinner : rest.dropWhile (·.kind.isSkipped) =
      (rest.dropWhile (·.kind.isInner)).dropWhile (·.kind.isSkipped) := by
    conv_lhs => rw [← List.takeWhile_append_dropWhile (p := fun x : Token => x.kind.isInner)
      (l := rest)]
    apply List.dropWhile_append_of_pos
    intro x hx
    have hx : x.kind.isInner = true :=
      List.mem_takeWhile_imp (p := fun x : Token => x.kind.isInner) hx
    exact TokenKind.isSkipped_of_isInner hx
  rw [hinner, find?_closesTag_eq_head? hends]
  cases hdrop : rest.dropWhile (·.kind.isInner) with
  | nil => rfl
  | cons x after =>
    rw [hdrop] at hends
    rcases TokenKind.closesTag_iff.mp (hends x rfl) with hkind | hkind
    · rw [List.dropWhile_cons_of_neg (by rw [hkind]; decide)]
    · have hafter := hcloses x after (hdrop ▸ List.dropWhile_suffix _) (by rw [hkind]; rfl)
      rw [List.dropWhile_cons_of_pos (by rw [hkind]; rfl)]
      cases after with
      | nil => simp [hkind]
      | cons y after =>
        have hy := hafter y rfl
        rw [TokenKind.isTagPart, Bool.or_eq_false_iff, decide_eq_false_iff_not] at hy
        rw [List.dropWhile_cons_of_neg (by simp [hy.1])]
        simp [hkind, hy.2]

/-- An end tag is taken for cut off unless the next token that ends a tag is a bracket. -/
theorem fault_endTagOf {t : Token} {rest : List Token} (ht : t.kind = .endTag)
    (hends : TagsEnd (t :: rest)) (hcloses : TagsClose rest) :
    (Event.stop (endTagOf t rest).1).fault = t.fault rest := by
  have h := hends t rest List.suffix_rfl (by rw [ht]; rfl)
  have hterminated : (endTagOf t rest).1.terminated =
      ((rest.dropWhile (·.kind.isSkipped)).head?).any (·.kind = .tagEnd) := by
    rw [endTagOf]
    cases rest.dropWhile (·.kind.isSkipped) with
    | nil => rfl
    | cons x after =>
      by_cases hx : x.kind = .tagEnd <;> simp [hx]
  rw [Token.fault, ht, Event.fault, hterminated, dropWhile_isSkipped h hcloses]

/-- A token with an event of its own is an error if it is a comment that has no end. -/
theorem fault_leafOf {t : Token} {e : Event} (h : leafOf t = some e) {rest : List Token}
    (hcomment : t.kind = .comment → CommentEnds t rest) : e.fault = t.fault rest := by
  rw [Token.fault]
  unfold leafOf at h
  split at h <;> cases h <;> simp_all [Event.fault, CommentEnds]

/-- **The errors of tokens are those of their events.** -/
theorem faultsOf_eq_filterMap {ts : List Token} (hends : TagsEnd ts) (hcloses : TagsClose ts)
    (hcomments : ForTokens (fun kind => kind = .comment) CommentEnds ts) :
    (eventsOf ts).filterMap Event.fault = faultsOf ts := by
  have hcons : ∀ (e : Event) (events : List Event),
      (e :: events).filterMap Event.fault = e.fault.toList ++ events.filterMap Event.fault := by
    intro e events
    rw [List.filterMap_cons]
    cases e.fault <;> rfl
  fun_induction eventsOf ts with
  | case1 => rfl
  | case2 t rest ht ih =>
    have hsuffix := startTagOf_suffix t rest
    rw [hcons, ih (hends.suffix hsuffix) (hcloses.suffix hsuffix) (hcomments.suffix hsuffix),
      fault_startTagOf ht hends, faultsOf, faultsOf_startTagOf t rest]
  | case3 t rest _ ht ih =>
    have hsuffix := endTagOf_suffix t rest
    rw [hcons, ih (hends.suffix hsuffix) (hcloses.suffix hsuffix) (hcomments.suffix hsuffix),
      fault_endTagOf ht hends (hcloses.suffix (List.suffix_cons t rest)), faultsOf,
      faultsOf_endTagOf t rest]
  | case4 t rest hstart hend e he ih =>
    have hsuffix := List.suffix_cons t rest
    rw [hcons, ih (hends.suffix hsuffix) (hcloses.suffix hsuffix) (hcomments.suffix hsuffix),
      fault_leafOf he fun ht => hcomments t rest List.suffix_rfl (decide_eq_true ht)]
    rfl
  | case5 t rest hstart hend hnone ih =>
    have hsuffix := List.suffix_cons t rest
    have hcomment : t.kind ≠ .comment := by
      intro ht
      rw [leafOf, ht] at hnone
      cases hnone
    rw [ih (hends.suffix hsuffix) (hcloses.suffix hsuffix) (hcomments.suffix hsuffix), faultsOf,
      Token.fault_eq_none hcomment (TokenKind.opensTag_of_ne hstart hend)]
    rfl

/-! ## Their number -/

/-- Behind a tag that nothing ends there are only inner tokens. -/
theorem isInner_of_any {t : Token} {rest : List Token} (hends : TagsEnd (t :: rest))
    (ht : t.kind.opensTag = true) (h : rest.any (·.kind.closesTag) = false) :
    ∀ x ∈ rest, x.kind.isInner = true := by
  have hhead := hends t rest List.suffix_rfl ht
  rw [any_closesTag, find?_closesTag_eq_head? hhead, Option.isSome_eq_false_iff,
    Option.isNone_iff_eq_none, List.head?_eq_none_iff, List.dropWhile_eq_nil_iff] at h
  exact h

theorem endsInTag_cons {t : Token} {rest : List Token} (hends : TagsEnd (t :: rest)) :
    (endsInTag (t :: rest)).toNat = (endsInTag rest).toNat +
      (t.kind.opensTag && !rest.any (·.kind.closesTag)).toNat := by
  apply lastIs_cons
  intro ht hcut
  rw [Bool.not_eq_true'] at hcut
  rw [List.any_eq_false]
  intro x hx
  have hinner := isInner_of_any hends ht hcut x hx
  rw [TokenKind.opensTag_of_isTagPart
    (TokenKind.isTagPart_of_isSkipped (TokenKind.isSkipped_of_isInner hinner))]
  exact Bool.false_ne_true

theorem endsInComment_cons {t : Token} {rest : List Token}
    (hcomment : t.kind = .comment → CommentEnds t rest) :
    (endsInComment (t :: rest)).toNat = (endsInComment rest).toNat +
      (decide (t.kind = .comment) && !t.endsComment).toNat := by
  apply lastIs_cons
  intro ht hcut
  rw [Bool.not_eq_true'] at hcut
  rw [(hcomment (of_decide_eq_true ht)).2 hcut]
  rfl

/-- The error of one token: a comment without its end, an end tag with a slash, or a tag that
nothing ends. -/
theorem count_fault (t : Token) (rest : List Token) :
    (t.fault rest).toList.count .unterminatedComment =
        (decide (t.kind = .comment) && !t.endsComment).toNat ∧
      (t.fault rest).toList.count .unterminatedTag =
        (t.kind = .endTag && (rest.find? (·.kind.closesTag)).any (·.kind = .tagSelfClose)).toNat +
          (t.kind.opensTag && !rest.any (·.kind.closesTag)).toNat := by
  rw [any_closesTag, Token.fault, any_closesTag]
  cases hkind : t.kind with
  | comment => cases t.endsComment <;> simp [TokenKind.opensTag]
  | startTag => cases rest.find? (·.kind.closesTag) <;> simp [TokenKind.opensTag]
  | endTag =>
    cases hfind : rest.find? (·.kind.closesTag) with
    | none => simp [TokenKind.opensTag]
    | some x =>
      have hcloses : x.kind.closesTag = true :=
        List.find?_some (p := fun x : Token => x.kind.closesTag) hfind
      rcases TokenKind.closesTag_iff.mp hcloses with hx | hx <;> simp [TokenKind.opensTag, hx]
  | text | cdata | doctype | instruction | attrName | equals | attrValue | tagEnd | tagSelfClose
    | rawText | garbage => simp [TokenKind.opensTag]

/-- **The number of errors among tokens.** -/
theorem count_faultsOf {ts : List Token} (hends : TagsEnd ts)
    (hcomments : ForTokens (fun kind => kind = .comment) CommentEnds ts) :
    (faultsOf ts).count .unterminatedComment = (endsInComment ts).toNat ∧
      (faultsOf ts).count .unterminatedTag = slashedEnds ts + (endsInTag ts).toNat := by
  induction ts with
  | nil => exact ⟨rfl, rfl⟩
  | cons t rest ih =>
    have hsuffix := List.suffix_cons t rest
    obtain ⟨hcomment, htag⟩ := ih (hends.suffix hsuffix) (hcomments.suffix hsuffix)
    obtain ⟨hfirstComment, hfirstTag⟩ := count_fault t rest
    rw [faultsOf, List.count_append, List.count_append, hcomment, htag, hfirstComment, hfirstTag,
      endsInTag_cons hends, slashedEnds,
      endsInComment_cons fun ht => hcomments t rest List.suffix_rfl (decide_eq_true ht)]
    constructor
    · exact Nat.add_comm _ _
    · omega

theorem count_errorKinds {kind : Kind} (hkind : kind.severity = .error) (ds : List Diagnostic) :
    (errorKinds ds).count kind = countKind kind ds := by
  rw [errorKinds, List.count, List.countP_map, List.countP_filter, countKind]
  congr 1
  funext d
  by_cases hd : d.kind = kind
  · simp [hd, Diagnostic.isError, Diagnostic.severity, hkind]
  · simp [hd]

theorem errorCount_eq (ds : List Diagnostic) :
    errorCount ds =
      countKind .unterminatedComment ds + countKind .unterminatedTag ds := by
  induction ds with
  | nil => rfl
  | cons d ds ih =>
    rw [countKind_cons, countKind_cons, errorCount, List.countP_cons, ← errorCount, ih,
      Diagnostic.isError, Diagnostic.severity]
    cases d.kind <;> simp [Kind.severity] <;> omega

/-! ## The errors of a source -/

/-- What the end of a source cuts off is the last of its tokens. -/
theorem exists_of_endsInComment {ts : List Token}
    (hcomments : ForTokens (fun kind => kind = .comment) CommentEnds ts)
    (h : endsInComment ts = true) : ∃ front t, ts = front ++ [t] ∧ t.kind = .comment := by
  obtain ⟨front, t, back, rfl, ht, hcut⟩ := exists_of_lastIs h
  obtain ⟨-, hback⟩ := hcomments t back (List.suffix_append front _) ht
  rw [hback (Bool.not_eq_true' _ ▸ hcut)]
  exact ⟨front, t, rfl, of_decide_eq_true ht⟩

theorem exists_of_endsInTag {ts : List Token} (hends : TagsEnd ts) (h : endsInTag ts = true) :
    ∃ front t inner, ts = front ++ t :: inner ∧ t.kind.opensTag = true ∧
      ∀ x ∈ inner, x.kind.isInner = true := by
  obtain ⟨front, t, back, rfl, ht, hcut⟩ := exists_of_lastIs h
  refine ⟨front, t, back, rfl, ht, ?_⟩
  exact isInner_of_any (hends.suffix (List.suffix_append front _)) ht (Bool.not_eq_true' _ ▸ hcut)

/-- A source does not end inside a comment and inside a tag. -/
theorem endsInTag_of_endsInComment {ts : List Token} (hends : TagsEnd ts)
    (hcomments : ForTokens (fun kind => kind = .comment) CommentEnds ts)
    (h : endsInComment ts = true) : endsInTag ts = false := by
  rw [Bool.eq_false_iff]
  intro htag
  obtain ⟨front, t, hts, ht⟩ := exists_of_endsInComment hcomments h
  obtain ⟨front', t', inner, hts', ht', hinner⟩ := exists_of_endsInTag hends htag
  have hlast : t ∈ t' :: inner := by
    have hmem : ts.getLast? = (t' :: inner).getLast? := by
      rw [hts', List.getLast?_append_of_ne_nil _ (List.cons_ne_nil t' inner)]
    rw [hts, List.getLast?_concat] at hmem
    exact List.mem_of_getLast? hmem.symm
  rcases List.mem_cons.mp hlast with rfl | hmem
  · rw [ht] at ht'
    cases ht'
  · have hkind := hinner t hmem
    rw [ht] at hkind
    cases hkind

/-- **Errors are slashed end tags and what the end of the source cuts off.** Besides the end tags
that a slash and a bracket end, there is one error at most: there is one exactly if the last comment
has no end or the last tag has neither of the tokens that end a tag, it is of the kind that says so,
and that comment or tag is the last of the tokens. -/
theorem errors_parse (source : String) :
    errorCount (parse source).diagnostics = slashedEnds (tokenize source) +
        (endsInComment (tokenize source) || endsInTag (tokenize source)).toNat ∧
      countKind .unterminatedComment (parse source).diagnostics =
        (endsInComment (tokenize source)).toNat ∧
      countKind .unterminatedTag (parse source).diagnostics =
        slashedEnds (tokenize source) + (endsInTag (tokenize source)).toNat ∧
      (endsInComment (tokenize source) = true →
        ∃ front t, tokenize source = front ++ [t] ∧ t.kind = .comment) ∧
      (endsInTag (tokenize source) = true →
        ∃ front t inner, tokenize source = front ++ t :: inner ∧ t.kind.opensTag = true ∧
          ∀ x ∈ inner, x.kind.isInner = true) := by
  have hends : TagsEnd (tokenize source) := (ordered_scan source.toList).tagsEnd 0
  have hcloses : TagsClose (tokenize source) := (ordered_scan source.toList).tagsClose 0
  have hcomments : ForTokens (fun kind => kind = .comment) CommentEnds (tokenize source) :=
    commentEnds_scan 0 source.toList
  have herrors : errorKinds (parse source).diagnostics = faultsOf (tokenize source) :=
    (errorKinds_ofEvents _).trans (faultsOf_eq_filterMap hends hcloses hcomments)
  obtain ⟨hcomment, htag⟩ := count_faultsOf hends hcomments
  rw [← herrors, count_errorKinds rfl] at hcomment htag
  refine ⟨?_, hcomment, htag, exists_of_endsInComment hcomments, exists_of_endsInTag hends⟩
  rw [errorCount_eq, hcomment, htag]
  -- The source is cut off in one place at most.
  cases hcut : endsInComment (tokenize source) with
  | false => simp
  | true => simp [endsInTag_of_endsInComment hends hcomments hcut, Nat.add_comm]

/-- A slashed end tag, a comment that has its end, and a start tag that is cut off. -/
theorem errors_parse_cut :
    endsInTag (tokenize "<a></a/><!-- x --><b c='>'") = true ∧
      errorCount (parse "<a></a/><!-- x --><b c='>'").diagnostics = 2 ∧
      ∃ front t inner, tokenize "<a></a/><!-- x --><b c='>'" = front ++ t :: inner ∧
        t.kind.opensTag = true ∧ ∀ x ∈ inner, x.kind.isInner = true := by
  have hcut : endsInTag (tokenize "<a></a/><!-- x --><b c='>'") = true := by decide +kernel
  obtain ⟨hcount, -, -, -, hlast⟩ := errors_parse "<a></a/><!-- x --><b c='>'"
  refine ⟨hcut, ?_, hlast hcut⟩
  rw [hcount, hcut]
  decide +kernel

/-- An error is reported though the source ends neither inside a comment nor inside a tag, and
there may be several of them. -/
theorem errors_parse_slashed :
    ¬ (∀ source, errorCount (parse source).diagnostics ≤ 1) ∧
      ¬ ∀ source, 0 < errorCount (parse source).diagnostics →
        endsInComment (tokenize source) = true ∨ endsInTag (tokenize source) = true := by
  constructor
  · intro h
    have hcount := h "</a/></b/>"
    revert hcount
    decide +kernel
  · intro h
    have hends := h "<a></a/>" (by decide +kernel)
    revert hends
    decide +kernel

end Stencil.Markup
