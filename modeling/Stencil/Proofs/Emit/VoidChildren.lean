import Stencil.Proofs.Markup.Constructs
import Stencil.Proofs.Markup.Elements
import Stencil.Proofs.Markup.Reports
import Stencil.Proofs.Markup.SourceNames

/-!
# The children of void elements

Parsing gives no children to an element whose name is void. Compiling trims the name first, and
drops the children if what is left is void. The two agree but for one kind of names: a name ends at
the separators of a tag, while trimming takes every blank character, so that a void name with other
blank characters behind it is void for compiling alone. Children are dropped exactly below elements
of such names.

## Main definitions

* `VoidEmpty`: what parsing says of an element
* `PaddedVoid`: a void name with blank characters behind it that are no separators
* `Markup.Node.IsVoidParent`: an element that has children and is void for compiling
* `HasDropped`: reports of which one says that children are dropped

## Main results

* `trimChars_eq_iff`: what trimming takes away
* `isVoid_tagName_iff`: the names that are void for compiling
* `hasDropped_reportsAll`: when dropped children are reported
* `void_children_dropped`: **children are dropped exactly below padded void names**
-/

namespace Stencil

namespace Text

/-- What trimming takes away from a text that does not begin with a blank character. -/
theorem trimChars_eq_iff {s v : List Char} (hs : ∀ c ∈ s.head?, isBlank c = false)
    (hv : ∀ c ∈ v, isBlank c = false) :
    trimChars s = v ↔ ∃ blanks, (∀ c ∈ blanks, isBlank c = true) ∧ s = v ++ blanks := by
  have hfront : s.dropWhile isBlank = s := by
    cases s with
    | nil => rfl
    | cons c s => exact List.dropWhile_cons_of_neg (by simp [hs c rfl])
  rw [trimChars, hfront]
  constructor
  · intro h
    refine ⟨(s.reverse.takeWhile isBlank).reverse, ?_, ?_⟩
    · intro c hc
      exact List.mem_takeWhile_imp (List.mem_reverse.mp hc)
    · rw [← h, ← List.reverse_append, List.takeWhile_append_dropWhile, List.reverse_reverse]
  · rintro ⟨blanks, hblanks, rfl⟩
    have hback : v.reverse.dropWhile isBlank = v.reverse := by
      cases hrev : v.reverse with
      | nil => rfl
      | cons c rest =>
        have hc : c ∈ v := List.mem_reverse.mp (hrev ▸ List.mem_cons_self ..)
        exact List.dropWhile_cons_of_neg (by simp [hv c hc])
    rw [List.reverse_append, List.dropWhile_append_of_pos, hback, List.reverse_reverse]
    intro c hc
    exact hblanks c (List.mem_reverse.mp hc)

end Text

open Stencil.Markup Stencil.Text

/-! ## Void elements of a source -/

/-- What parsing says of an element: its name is one, and it has no children if its name is void. -/
def VoidEmpty (t : Tag) (children : List Node) : Prop :=
  IsElementName t.name.toList ∧ (isVoid t.name = true → children = [])

theorem admits_voidEmpty {ts : List Token}
    (h : ForTokens (fun kind => kind = .startTag)
      (fun t _ => IsElementName (t.tagName 1).toList) ts) :
    Admits VoidEmpty (eventsOf ts) := by
  intro s rest hsuffix
  obtain ⟨t, after, htokens, ht, rfl, rfl⟩ := exists_startTagOf hsuffix
  have hname : IsElementName (t.tagName 1).toList := h t after htokens (decide_eq_true ht)
  split
  · rename_i hopens
    have hvoid : isVoid (startTagOf t after).1.tag.name = false := by
      rw [StartTag.opens, Bool.and_eq_true, Bool.not_eq_true'] at hopens
      exact hopens.2
    have hfree : Free VoidEmpty (startTagOf t after).1.tag := by
      intro children
      refine ⟨hname, fun htrue => ?_⟩
      rw [hvoid] at htrue
      cases htrue
    exact ⟨hfree _, .inl hfree⟩
  · exact ⟨hname, fun _ => rfl⟩

/-! ## Names that are void for compiling -/

/-- A void name with blank characters behind it that are no separators. -/
def PaddedVoid (name : String) : Prop :=
  ∃ void ∈ voidNames, ∃ blanks : List Char, blanks ≠ [] ∧
    (∀ c ∈ blanks, isBlank c = true ∧ isSeparator c = false) ∧ name.toList = void.toList ++ blanks

/-- Small letters are not blank: each range of blank characters ends in front of them or begins
behind them. -/
theorem isBlank_of_isLower {c : Char} (h : c.isLower = true) : isBlank c = false := by
  rw [Char.isLower, Bool.and_eq_true, decide_eq_true_eq, decide_eq_true_eq] at h
  have hlow : 97 ≤ c.toNat := UInt32.le_iff_toNat_le.mp h.1
  have hhigh : c.toNat ≤ 122 := UInt32.le_iff_toNat_le.mp h.2
  have hranges : blankRanges.all (fun r => r.2 < 97 || 122 < r.1) = true := by decide
  rw [isBlank, List.any_eq_false]
  intro r hr
  have hr := List.all_eq_true.mp hranges r hr
  simp only [Bool.or_eq_true, Bool.and_eq_true, decide_eq_true_eq] at hr ⊢
  omega

theorem isBlank_of_mem_voidNames {void : String} (h : void ∈ voidNames) :
    ∀ c ∈ void.toList, isBlank c = false := by
  have hall : voidNames.all (fun void => void.toList.all (fun c => !isBlank c)) = true := by decide
  have hvoid := List.all_eq_true.mp (List.all_eq_true.mp hall void h)
  intro c hc
  simpa using hvoid c hc

theorem isBlankText_of_isElementName {name : String} (h : IsElementName name.toList) :
    isBlankText name = false := by
  obtain ⟨c, rest, hcons, hc⟩ := h.exists_cons
  rw [isBlankText, hcons, List.all_cons, isBlank_of_isLower hc, Bool.false_and]

/-- The tag of an element of a source is its name without the blank characters behind it. -/
theorem tagName_of_isElementName (c : Config) {name : String} (h : IsElementName name.toList) :
    tagName c name = trim name ∧ ∀ d ∈ name.toList.head?, isBlank d = false := by
  obtain ⟨d, rest, hcons, hd⟩ := h.exists_cons
  have hblank := isBlank_of_isLower hd
  refine ⟨?_, ?_⟩
  · rw [tagName, isBlankText_of_isElementName h, if_neg Bool.false_ne_true]
    apply lowercase_eq
    rw [trim, String.toList_ofList]
    apply map_toLower_eq
    intro x hx
    have hmem : x ∈ name.toList := by
      rw [trimChars, List.mem_reverse] at hx
      exact List.dropWhile_subset _ (List.mem_reverse.mp (List.dropWhile_subset _ hx))
    exact (h.chars x hmem).1
  · rw [hcons]
    rintro x ⟨⟩
    exact hblank

/-- **The names that are void for compiling**: those that are void, and those with blank characters
behind them. -/
theorem isVoid_tagName_iff (c : Config) {name : String} (h : IsElementName name.toList) :
    isVoid (tagName c name) = true ↔ isVoid name = true ∨ PaddedVoid name := by
  obtain ⟨htag, hhead⟩ := tagName_of_isElementName c h
  have htrim : ∀ void ∈ voidNames, trim name = void ↔
      ∃ blanks, (∀ c ∈ blanks, isBlank c = true) ∧ name.toList = void.toList ++ blanks := by
    intro void hvoid
    rw [← trimChars_eq_iff hhead (isBlank_of_mem_voidNames hvoid), ← String.toList_inj, trim,
      String.toList_ofList]
  rw [htag, isVoid, List.contains_iff_mem]
  constructor
  · intro hvoid
    obtain ⟨blanks, hblanks, hname⟩ := (htrim _ hvoid).mp rfl
    by_cases hnil : blanks = []
    · rw [hnil, List.append_nil, String.toList_inj] at hname
      rw [← hname] at hvoid
      exact .inl (List.contains_iff_mem.mpr hvoid)
    · refine .inr ⟨trim name, hvoid, blanks, hnil, ?_, hname⟩
      intro x hx
      refine ⟨hblanks x hx, ?_⟩
      -- The blank characters belong to the name, which has no separator.
      have hname := h.isTagNameChar x (hname ▸ List.mem_append_right _ hx)
      rw [isTagNameChar, Bool.not_eq_true', Bool.or_eq_false_iff, Bool.or_eq_false_iff] at hname
      exact hname.1.1
  · rintro (hvoid | ⟨void, hvoid, blanks, -, hblanks, hname⟩)
    · have hmem := List.contains_iff_mem.mp hvoid
      rwa [(htrim name hmem).mpr ⟨[], List.forall_mem_nil _, (List.append_nil _).symm⟩]
    · rwa [(htrim void hvoid).mpr ⟨blanks, fun x hx => (hblanks x hx).1, hname⟩]

/-! ## When dropped children are reported -/

/-- An element that has children and is void for compiling. -/
def Markup.Node.IsVoidParent (c : Config) : Node → Prop
  | .element t children => isVoid (tagName c t.name) = true ∧ children ≠ []
  | _ => False

/-- Reports of which one says that children are dropped. -/
def HasDropped (ds : List Diagnostic) : Prop :=
  ∃ d ∈ ds, d.kind = .voidElementChildren

theorem hasDropped_append {ds ds' : List Diagnostic} :
    HasDropped (ds ++ ds') ↔ HasDropped ds ∨ HasDropped ds' := by
  simp only [HasDropped, List.mem_append, or_and_right, exists_or]

theorem hasDropped_nil : ¬ HasDropped [] :=
  fun ⟨_, hd, _⟩ => absurd hd List.not_mem_nil

theorem not_hasDropped {ds : List Diagnostic} (h : ∀ d ∈ ds, d.kind ≠ .voidElementChildren) :
    ¬ HasDropped ds :=
  fun ⟨d, hd, hkind⟩ => h d hd hkind

theorem kind_of_mem_attributeReports {a : Attribute} {d : Diagnostic}
    (h : d ∈ attributeReports a) : d.kind = .unmatchedBrace := by
  unfold attributeReports at h
  split at h
  · rw [List.mem_singleton.mp h]
  · cases h

theorem hasDropped_tagReports (c : Config) (t : Tag) (children : List Node) :
    HasDropped (tagReports c t children) ↔ (Node.element t children).IsVoidParent c := by
  have hname : ¬ HasDropped
      (if trim t.name = "" then [.about .emptyTagName t.span (normalTag c t.name)] else []) := by
    apply not_hasDropped
    intro d hd
    split at hd
    · rw [List.mem_singleton.mp hd]
      exact nofun
    · cases hd
  have hattributes : ¬ HasDropped (t.attributes.flatMap attributeReports) := by
    apply not_hasDropped
    intro d hd
    obtain ⟨a, -, hd⟩ := List.mem_flatMap.mp hd
    rw [kind_of_mem_attributeReports hd]
    exact nofun
  rw [tagReports, hasDropped_append, hasDropped_append,
    or_iff_right (not_or.mpr ⟨hname, hattributes⟩), Node.IsVoidParent, tagName_eq]
  split
  · rename_i h
    rw [Bool.and_eq_true, Bool.not_eq_true', List.isEmpty_eq_false_iff] at h
    exact iff_of_true ⟨_, List.mem_singleton_self _, rfl⟩ h
  · rename_i h
    rw [Bool.and_eq_true, Bool.not_eq_true', List.isEmpty_eq_false_iff] at h
    exact iff_of_false hasDropped_nil h

/-- Nothing is dropped from a node that is no element. -/
theorem hasDropped_leaf {c : Config} {node : Node} (hleaf : node.preorder = [node])
    (hnode : ¬ node.IsVoidParent c)
    (hreports : ∀ d ∈ reports c node, d.kind ≠ .voidElementChildren) :
    HasDropped (reports c node) ↔ ∃ x ∈ node.preorder, x.IsVoidParent c := by
  refine iff_of_false (not_hasDropped hreports) ?_
  rintro ⟨x, hx, hparent⟩
  rw [hleaf, List.mem_singleton] at hx
  exact hnode (hx ▸ hparent)

mutual

/-- Dropped children are reported of a node if they are dropped from an element in it. -/
theorem hasDropped_reports (c : Config) : ∀ node : Node,
    HasDropped (reports c node) ↔ ∃ x ∈ node.preorder, x.IsVoidParent c
  | .element t children => by
    have hchildren := hasDropped_reportsAll c children
    rw [reports, Node.preorder, hasDropped_append, hasDropped_tagReports, List.exists_mem_cons_iff,
      ← hchildren]
    by_cases hvoid : isVoid (normalTag c t.name) = true
    · -- What is below a void element is not reported, but then the element itself is.
      rw [if_pos hvoid, or_iff_left hasDropped_nil]
      refine ⟨.inl, ?_⟩
      rintro (hself | hbelow)
      · exact hself
      · refine ⟨(tagName_eq c t.name).symm ▸ hvoid, ?_⟩
        rintro rfl
        exact hasDropped_nil hbelow
    · rw [if_neg hvoid]
  | .text s span => by
    refine hasDropped_leaf rfl nofun ?_
    intro d hd
    rw [reports] at hd
    split at hd
    · rw [List.mem_singleton.mp hd]
      exact nofun
    · cases hd
  | .comment _ _ => hasDropped_leaf rfl nofun (List.forall_mem_nil _)
  | .other _ _ _ => hasDropped_leaf rfl nofun (List.forall_mem_singleton.mpr nofun)

/-- **Dropped children are reported of a forest** if they are dropped from an element in it. -/
theorem hasDropped_reportsAll (c : Config) : ∀ nodes : List Node,
    HasDropped (reportsAll c nodes) ↔ ∃ x ∈ preorderAll nodes, x.IsVoidParent c
  | [] => by simp [reportsAll, preorderAll, HasDropped]
  | node :: rest => by
    rw [reportsAll, preorderAll, hasDropped_append, hasDropped_reports c node,
      hasDropped_reportsAll c rest]
    simp only [List.mem_append, or_and_right, exists_or]

end

/-! ## The void elements of a source -/

theorem voidEmpty_parse (source : String) : ElementsAll VoidEmpty (parse source).nodes :=
  elementsAll_parse (fun _ _ _ h => h) (admits_voidEmpty (isElementName_scan 0 source.toList))

/-- What is reported of a source is what parsing and compiling report. -/
theorem diagnostics_of_compileSource {c : Config} {source : String} {compiled : Compiled}
    (h : compileSource c source = .ok compiled) :
    compiled.diagnostics =
      (parse source).diagnostics ++ reportsAll c (parse source).nodes := by
  rw [compileSource] at h
  cases hcompile : compile c (parse source).nodes with
  | error err =>
    rw [hcompile] at h
    cases h
  | ok made =>
    rw [hcompile] at h
    cases h
    exact congrArg (_ ++ ·) (diagnostics_of_compile hcompile)

theorem hasDropped_compileSource {c : Config} {source : String} {compiled : Compiled}
    (h : compileSource c source = .ok compiled) :
    HasDropped compiled.diagnostics ↔ HasDropped (reportsAll c (parse source).nodes) := by
  rw [diagnostics_of_compileSource h, hasDropped_append]
  refine or_iff_right (not_hasDropped ?_)
  intro d hd hkind
  have hrank := rank_of_mem_diagnostics hd
  rw [hkind] at hrank
  revert hrank
  decide

/-- **Children are dropped exactly below padded void names.** Of the elements of a source, those
with a void name have no children. Compiling takes an element for void if its name is void or a void
one with blank characters behind it that are no separators. So if a source is compiled, it is
reported that children are dropped exactly if the source has an element of such a padded name with
children. -/
theorem void_children_dropped (c : Config) (source : String) :
    (∀ t children, .element t children ∈ preorderAll (parse source).nodes →
      (isVoid t.name = true → children = []) ∧
        (isVoid (tagName c t.name) = true ↔ isVoid t.name = true ∨ PaddedVoid t.name)) ∧
    ∀ compiled, compileSource c source = .ok compiled →
      (HasDropped compiled.diagnostics ↔
        ∃ t children, .element t children ∈ preorderAll (parse source).nodes ∧
          PaddedVoid t.name ∧ children ≠ []) := by
  have helements := voidEmpty_parse source
  have hvoid : ∀ t children, .element t children ∈ preorderAll (parse source).nodes →
      (isVoid t.name = true → children = []) ∧
        (isVoid (tagName c t.name) = true ↔ isVoid t.name = true ∨ PaddedVoid t.name) := by
    intro t children ht
    obtain ⟨hname, hempty⟩ := helements t children ht
    exact ⟨hempty, isVoid_tagName_iff c hname⟩
  refine ⟨hvoid, ?_⟩
  intro compiled hcompiled
  rw [hasDropped_compileSource hcompiled, hasDropped_reportsAll]
  constructor
  · rintro ⟨node, hnode, hparent⟩
    cases node with
    | element t children =>
      obtain ⟨htag, hne⟩ := hparent
      obtain ⟨hempty, hiff⟩ := hvoid t children hnode
      -- Parsing gave no children to an element of a void name, so that this one is padded.
      rcases hiff.mp htag with hname | hpadded
      · exact absurd (hempty hname) hne
      · exact ⟨t, children, hnode, hpadded, hne⟩
    | text | comment | other => cases hparent
  · rintro ⟨t, children, ht, hpadded, hne⟩
    exact ⟨_, ht, (hvoid t children ht).2.mpr (.inr hpadded), hne⟩

/-- A void element with a text behind it keeps no children, and nothing is dropped. -/
theorem void_children_dropped_not :
    ∃ compiled, compileSource {} "<p><BR class=a>x<i\u00a0>y" = .ok compiled ∧
      ¬ HasDropped compiled.diagnostics ∧
      ¬ ∃ t children, .element t children ∈
          preorderAll (parse "<p><BR class=a>x<i\u00a0>y").nodes ∧
        PaddedVoid t.name ∧ children ≠ [] := by
  generalize hr : compileSource {} "<p><BR class=a>x<i\u00a0>y" = r
  have hok : r.toOption.any (fun compiled =>
      compiled.diagnostics.all (·.kind ≠ .voidElementChildren)) = true := by
    rw [← hr]
    decide +kernel
  cases r with
  | error err => cases hok
  | ok compiled =>
    have hnone : ¬ HasDropped compiled.diagnostics := by
      apply not_hasDropped
      intro d hd
      exact of_decide_eq_true (List.all_eq_true.mp hok d hd)
    exact ⟨compiled, rfl, hnone, mt ((void_children_dropped _ _).2 compiled hr).mpr hnone⟩

/-- A no-break space behind a void name makes it a name that is void for compiling alone. -/
theorem void_children_dropped_padded :
    ¬ ∀ c source compiled, compileSource c source = .ok compiled →
      ¬ HasDropped compiled.diagnostics := by
  intro h
  generalize hr : compileSource {} "<br\u00a0>x" = r
  have hok : r.toOption.any (fun compiled =>
      compiled.diagnostics.any (·.kind = .voidElementChildren)) = true := by
    rw [← hr]
    decide +kernel
  cases r with
  | error err => cases hok
  | ok compiled =>
    obtain ⟨d, hd, hkind⟩ := List.any_eq_true.mp hok
    exact h {} _ compiled hr ⟨d, hd, of_decide_eq_true hkind⟩

end Stencil
