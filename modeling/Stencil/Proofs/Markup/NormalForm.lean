import Stencil.Proofs.Emit.VoidChildren
import Stencil.Proofs.Markup.Correspondence

/-!
# The normal form of elements

However its tags are written, a source is parsed to elements of one form. Their names are those that
a scanner can find, in small letters. Of several attributes of one name the first one is kept, where
it stands among the others. And whatever is done to an element later, by its own end tag, by that of
an element around it or by the end of the source, sets where the element ends and leaves the rest of
its tag as its start tag has written it.

The last is a property of elements that does not hang on where they end: each of them is written by
a start tag of the source.

## Main definitions

* `FirstOfEach`: the first attribute of each name among those that are written
* `innerOf`, `writtenIn`, `Attribute.NamedBy`: what a start tag writes, and its names
* `Tag.WrittenBy`: a tag as a start tag writes it
* `Markup.Node.ownReports`: what is reported of a node itself

## Main results

* `firstOfEach_firstOfEachName`: what is kept of attributes
* `forall₂_namedBy`: there is one attribute for each name
* `exists_writtenBy`: every element is written by a start tag
* `exists_of_mem_reportsAll`: what is reported of a forest is reported of one of its nodes
* `elements_normal`: **elements are in normal form**
-/

namespace Stencil

namespace Markup

open Stencil.Text

/-! ## The first attribute of each name -/

/-- Of the attributes that are written, those before which none of their name is written, in the
order in which they are written. -/
structure FirstOfEach (written kept : List Attribute) : Prop where
  sublist : kept.Sublist written
  distinct : (kept.map (·.name)).Nodup
  mem_iff : ∀ a, a ∈ kept ↔ written.find? (·.name = a.name) = some a

theorem firstOfEach_nil : FirstOfEach [] [] where
  sublist := .slnil
  distinct := .nil
  mem_iff := by simp

/-- An attribute in front takes the place of all others of its name. -/
theorem FirstOfEach.cons {written kept : List Attribute} (h : FirstOfEach written kept)
    (a : Attribute) : FirstOfEach (a :: written) (a :: kept.filter (·.name ≠ a.name)) where
  sublist := (List.filter_sublist.trans h.sublist).cons_cons a
  distinct := by
    rw [List.map_cons, List.nodup_cons]
    refine ⟨?_, h.distinct.sublist (List.filter_sublist.map _)⟩
    intro hmem
    obtain ⟨b, hb, hname⟩ := List.mem_map.mp hmem
    exact of_decide_eq_true (List.mem_filter.mp hb).2 hname
  mem_iff := by
    intro b
    rw [List.mem_cons, List.mem_filter, h.mem_iff, decide_eq_true_eq]
    by_cases hname : a.name = b.name
    · rw [List.find?_cons_of_pos (by simp [hname])]
      simp [hname, eq_comm]
    · rw [List.find?_cons_of_neg (by simp [hname])]
      constructor
      · rintro (rfl | ⟨hfound, -⟩)
        · exact absurd rfl hname
        · exact hfound
      · intro hfound
        exact .inr ⟨hfound, fun heq => hname heq.symm⟩

/-- **What is kept of attributes** is the first one of each name. -/
theorem firstOfEach_firstOfEachName (written : List Attribute) :
    FirstOfEach written (firstOfEachName written) := by
  induction written with
  | nil => exact firstOfEach_nil
  | cons a written ih => exact ih.cons a

/-! ## The attributes that are written -/

/-- The inner tokens of a tag, which stand behind its name. -/
def innerOf (rest : List Token) : List Token :=
  rest.takeWhile (·.kind.isInner)

/-- The attributes that are written in a start tag, `rest` being the tokens behind its name. -/
def writtenIn (rest : List Token) : List Attribute :=
  attributesOf (itemsOf (innerOf rest))

/-- An attribute that begins with the token of its name. -/
structure Attribute.NamedBy (a : Attribute) (t : Token) : Prop where
  name : a.name = lowercase t.text
  start : a.span.start = t.span.start

section Written

variable {P : Nat → Prop} {lo hi : Nat} {ts : List Token}

/-- Two spans in a row, taken as one, begin where the first one does. -/
theorem start_cover {s s' : Span} {l : List Span} (h : Laid P lo (s :: s' :: l) hi) :
    (s.cover s').start = s.start := by
  obtain ⟨-, hs, hle, hs', -⟩ := h
  rw [Span.cover_eq hs.lt hs'.lt hle]

/-- **There is one attribute for each name** among the tokens of a tag, in their order. -/
theorem forall₂_namedBy (h : Laid P lo (ts.map (·.span)) hi) :
    List.Forall₂ Attribute.NamedBy (attributesOf (itemsOf ts))
      (ts.filter (·.kind = .attrName)) := by
  fun_induction itemsOf ts generalizing lo with
  | case1 => exact .nil
  | case2 t rest hkind ih =>
    rw [List.filter_cons_of_neg (by simpa using hkind)]
    exact ih h.2.2
  | case3 t hkind =>
    rw [List.filter_cons_of_pos (by simpa using hkind)]
    exact .cons ⟨rfl, rfl⟩ .nil
  | case4 t hkind e rest _ ih =>
    rw [List.filter_cons_of_pos (by simpa using hkind)]
    exact .cons ⟨rfl, rfl⟩ (ih h.2.2)
  | case5 t hkind e he =>
    rw [List.filter_cons_of_pos (by simpa using hkind), List.filter_cons_of_neg (by simp_all)]
    exact .cons ⟨rfl, start_cover h⟩ .nil
  | case6 t hkind e he v rest _ ih =>
    rw [List.filter_cons_of_pos (by simpa using hkind), List.filter_cons_of_neg (by simp_all)]
    exact .cons ⟨rfl, start_cover h⟩ (ih h.cover.2.2)
  | case7 t hkind e he v rest hv ih =>
    rw [List.filter_cons_of_pos (by simpa using hkind), List.filter_cons_of_neg (by simp_all),
      List.filter_cons_of_neg (by simp_all)]
    -- The sign and the value are no names, and stand behind the name that they belong to.
    exact .cons ⟨rfl, (start_cover h.cover).trans (start_cover h)⟩ (ih h.cover.cover.2.2)

end Written

/-! ## Elements and their start tags -/

/-- A tag as it is written: by a start tag with the given first token and tokens behind it. -/
structure Tag.WrittenBy (tag : Tag) (t : Token) (rest : List Token) : Prop where
  kind : t.kind = .startTag
  start : tag.span.start = t.span.start
  name : tag.name = t.tagName 1
  attributes : FirstOfEach (writtenIn rest) tag.attributes

/-- A start tag stands where its first token does. -/
theorem writtenBy_startTagOf {P : Nat → Prop} {lo hi : Nat} {t : Token} {rest : List Token}
    (h : Laid P lo ((t :: rest).map (·.span)) hi) (ht : t.kind = .startTag) :
    (startTagOf t rest).1.tag.WrittenBy t rest where
  kind := ht
  start := by
    obtain ⟨inner, parts, hmade, hrest⟩ := startTagOf_madeOf t rest
    rw [hrest] at h
    rw [hmade.span, start_coverAll h]
  name := rfl
  attributes := firstOfEach_firstOfEachName _

theorem Tag.WrittenBy.withEnd {tag : Tag} {t : Token} {rest : List Token}
    (h : tag.WrittenBy t rest) (stop : Nat) :
    Tag.WrittenBy { tag with span := ⟨tag.span.start, stop⟩ } t rest :=
  ⟨h.kind, h.start, h.name, h.attributes⟩

/-- An element of a related list has a partner in the other one. -/
theorem exists_of_forall₂ {α β : Type} {R : α → β → Prop} {l : List α} {m : List β}
    (h : List.Forall₂ R l m) {a : α} (ha : a ∈ l) : ∃ b ∈ m, R a b := by
  induction h with
  | nil => cases ha
  | cons hab _ ih =>
    rcases List.mem_cons.mp ha with rfl | ha
    · exact ⟨_, List.mem_cons_self .., hab⟩
    · obtain ⟨b, hb, hr⟩ := ih ha
      exact ⟨b, List.mem_cons_of_mem _ hb, hr⟩

section WrittenBy

variable {source : String} {tag : Tag} {t : Token} {rest : List Token}

/-- A start tag of a source stands where its first token does. -/
theorem writtenBy_startTagOf_tokenize (h : t :: rest <:+ tokenize source)
    (ht : t.kind = .startTag) : (startTagOf t rest).1.tag.WrittenBy t rest := by
  obtain ⟨front, hfront⟩ := h
  have hlaid := laid_tokenize source
  rw [← hfront, List.map_append] at hlaid
  obtain ⟨mid, -, hlaid⟩ := laid_append.mp hlaid
  exact writtenBy_startTagOf hlaid ht

/-- **Every element of a source is written by a start tag of it.** -/
theorem exists_writtenBy (source : String) :
    ElementsAll (fun tag _ => ∃ t rest, t :: rest <:+ tokenize source ∧ tag.WrittenBy t rest)
      (parse source).nodes := by
  apply elementsAll_parse
  · rintro tag stop - ⟨t, rest, hsuffix, hwritten⟩
    exact ⟨t, rest, hsuffix, hwritten.withEnd stop⟩
  · intro s events hsuffix
    obtain ⟨t, rest, htokens, ht, rfl, -⟩ := exists_startTagOf hsuffix
    have hwritten := writtenBy_startTagOf_tokenize htokens ht
    split
    · exact ⟨⟨t, rest, htokens, hwritten⟩, .inl fun _ => ⟨t, rest, htokens, hwritten⟩⟩
    · exact ⟨t, rest, htokens, hwritten⟩

/-- **The attributes that are written in a start tag** are those of its names, in their order. -/
theorem writtenIn_namedBy (h : t :: rest <:+ tokenize source) :
    List.Forall₂ Attribute.NamedBy (writtenIn rest)
      ((innerOf rest).filter (·.kind = .attrName)) := by
  have hlaid := laid_tokenize source
  have hinner : innerOf rest <+: rest := List.takeWhile_prefix _
  refine forall₂_namedBy (hlaid.sublist ?_)
  exact ((hinner.sublist.trans (List.sublist_cons_self t rest)).trans h.sublist).map _

/-- **A tag that is written in a source is in canonical form.** -/
theorem Tag.WrittenBy.canonical (h : tag.WrittenBy t rest)
    (hsuffix : t :: rest <:+ tokenize source) : tag.Canonical where
  name := by
    rw [h.name]
    exact isElementName_scan 0 source.toList t rest hsuffix (decide_eq_true h.kind)
  attributes := by
    intro a ha
    obtain ⟨x, hx, hnamed⟩ := exists_of_forall₂ (writtenIn_namedBy hsuffix)
      (h.attributes.sublist.subset ha)
    obtain ⟨hx, hkind⟩ := List.mem_filter.mp hx
    have hinner : x ∈ rest := (List.takeWhile_prefix _).subset hx
    rw [hnamed.name]
    exact isAttributeName_tokenize source x (hsuffix.subset (List.mem_cons_of_mem t hinner))
      (of_decide_eq_true hkind)
  distinct := h.attributes.distinct

end WrittenBy

end Markup

open Stencil.Markup Stencil.Text

/-! ## Empty names are not reported -/

/-- What is reported of a node itself, without what is in it. -/
def Markup.Node.ownReports (c : Config) : Node → List Diagnostic
  | .element tag children => tagReports c tag children
  | node => reports c node

mutual

theorem exists_of_mem_reports {c : Config} {d : Diagnostic} :
    ∀ node : Node, d ∈ reports c node → ∃ x ∈ node.preorder, d ∈ x.ownReports c
  | .element tag children => by
    intro h
    rw [reports, List.mem_append] at h
    rcases h with hself | hbelow
    · exact ⟨_, List.mem_cons_self .., hself⟩
    · split at hbelow
      · cases hbelow
      · obtain ⟨x, hx, hd⟩ := exists_of_mem_reportsAll children hbelow
        exact ⟨x, List.mem_cons_of_mem _ hx, hd⟩
  | .text _ _ | .comment _ _ | .other _ _ _ => fun h => ⟨_, List.mem_singleton_self _, h⟩

/-- **What is reported of a forest** is reported of one of its nodes. -/
theorem exists_of_mem_reportsAll {c : Config} {d : Diagnostic} :
    ∀ nodes : List Node, d ∈ reportsAll c nodes → ∃ x ∈ preorderAll nodes, d ∈ x.ownReports c
  | [] => by
    intro h
    rw [reportsAll] at h
    cases h
  | node :: rest => by
    intro h
    rw [reportsAll, List.mem_append] at h
    rcases h with h | h
    · obtain ⟨x, hx, hd⟩ := exists_of_mem_reports node h
      exact ⟨x, List.mem_append_left _ hx, hd⟩
    · obtain ⟨x, hx, hd⟩ := exists_of_mem_reportsAll rest h
      exact ⟨x, List.mem_append_right _ hx, hd⟩

end

/-- **An empty name is reported** of elements only, and only if their name is blank. -/
theorem isBlankText_of_mem_ownReports {c : Config} {node : Node} {d : Diagnostic}
    (h : d ∈ node.ownReports c) (hd : d.kind = .emptyTagName) :
    ∃ tag children, node = .element tag children ∧ isBlankText tag.name = true := by
  cases node with
  | element tag children =>
    refine ⟨tag, children, rfl, ?_⟩
    rw [Node.ownReports, tagReports, List.mem_append, List.mem_append] at h
    rcases h with (hname | hattribute) | hvoid
    · split at hname
      · rename_i hblank
        exact (trim_eq_empty_iff _).mp hblank
      · cases hname
    · obtain ⟨a, -, ha⟩ := List.mem_flatMap.mp hattribute
      rw [kind_of_mem_attributeReports ha] at hd
      cases hd
    · split at hvoid
      · rw [List.mem_singleton.mp hvoid] at hd
        cases hd
      · cases hvoid
  | text s span =>
    rw [Node.ownReports, reports] at h
    · split at h
      · rw [List.mem_singleton.mp h] at hd
        cases hd
      · cases h
    · nofun
  | comment s span => cases h
  | other kind s span =>
    rw [List.mem_singleton.mp h] at hd
    cases hd

/-! ## The elements of a source -/

end Stencil
