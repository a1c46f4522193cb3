import Stencil.Markup.Selector
import Stencil.Proofs.Markup.Nesting

/-!
# What a selector picks

A selector picks an element by a search whose state is the list of nodes that wait. The elements it
visits are those of the forest in the order of the source, each in front of what is in it: whatever
waits, listed in that order, is what is left of the listing of the whole forest. So what is picked
is the first element of that listing that the selector asks for.

## Main definitions

* `Node.element?`, `elements`: the elements of a forest, at any depth and in the order of the source
* `Tag.HasIdentifier`: a tag whose first attribute of the name `id` has a value
* `Asks`: what the text of a selector asks of an element
* `IsFirst`: the first of a list with a property

## Main results

* `search_eq_find?`: a search visits the elements of the listing
* `asks_iff`: what the text of a selector asks is what it is read as
* `select_isFirst`: **a selector picks the first element in the order of the source**
-/

namespace Stencil.Markup

open Stencil.Text

/-! ## The order of the search -/

/-- The element that a node is, if it is one. -/
def Node.element? : Node → Option Element
  | .element tag children => some ⟨tag, children⟩
  | _ => none

/-- The elements of a forest, at any depth and in the order of the source. -/
def elements (nodes : List Node) : List Element :=
  (preorderAll nodes).filterMap Node.element?

/-- An element is listed in front of what is in it, and that in front of what is behind it. -/
theorem elements_element (tag : Tag) (children rest : List Node) :
    elements (.element tag children :: rest) = ⟨tag, children⟩ :: elements (children ++ rest) := by
  rw [elements, elements, preorderAll_append, preorderAll, Node.preorder]
  rfl

/-- A node that is no element and has none in it is not listed. -/
theorem elements_leaf {node : Node} (hleaf : node.preorder = [node]) (hnode : node.element? = none)
    (rest : List Node) : elements (node :: rest) = elements rest := by
  rw [elements, preorderAll, hleaf, List.singleton_append, List.filterMap_cons_none hnode]
  rfl

/-- **A search visits the elements of the listing**, in its order, up to the first one with the
property. -/
theorem search_eq_find? (p : Tag → Bool) (pending : List Node) :
    search p pending = (elements pending).find? fun e => p e.tag := by
  fun_induction search p pending with
  | case1 => rfl
  | case2 tag children rest hp =>
    rw [elements_element, List.find?_cons_of_pos (p := fun e : Element => p e.tag) hp]
  | case3 tag children rest hp ih =>
    rw [elements_element, List.find?_cons_of_neg (p := fun e : Element => p e.tag) hp, ih]
  | case4 s span rest ih => rw [elements_leaf rfl rfl, ih]
  | case5 s span rest ih => rw [elements_leaf rfl rfl, ih]
  | case6 kind s span rest ih => rw [elements_leaf rfl rfl, ih]

/-! ## What a selector asks for -/

/-- A tag whose first attribute of the name `id` has the given value. -/
def Tag.HasIdentifier (t : Tag) (value : String) : Prop :=
  ∃ before a after, t.attributes = before ++ a :: after ∧ a.name = "id" ∧ a.value = value ∧
    ∀ b ∈ before, b.name ≠ "id"

/-- What the text of a selector asks of an element. Without the blank characters at its ends it is
`#` with an identifier, or it is a name whose capitals do not matter. A text of which nothing is
left, or nothing but `#`, asks for no element. -/
def Asks (selector : String) (e : Element) : Prop :=
  (∃ id, id ≠ "" ∧ trim selector = "#" ++ id ∧ e.tag.HasIdentifier id) ∨
    (trim selector ≠ "" ∧ (∀ id, trim selector ≠ "#" ++ id) ∧
      e.tag.name = lowercase (trim selector))

theorem hasIdentifier_iff {t : Tag} {value : String} :
    t.HasIdentifier value ↔ t.attribute? "id" = some value := by
  rw [Tag.attribute?, Option.map_eq_some_iff]
  simp only [List.find?_eq_some_iff_append]
  constructor
  · rintro ⟨before, a, after, hattributes, hname, hvalue, hbefore⟩
    refine ⟨a, ⟨decide_eq_true hname, before, after, hattributes, ?_⟩, hvalue⟩
    intro b hb
    simpa using hbefore b hb
  · rintro ⟨a, ⟨hname, before, after, hattributes, hbefore⟩, hvalue⟩
    refine ⟨before, a, after, hattributes, of_decide_eq_true hname, hvalue, ?_⟩
    intro b hb
    simpa using hbefore b hb

/-- The three ways in which a selector is read. -/
theorem parse?_cases (selector : String) :
    ((trim selector = "" ∨ trim selector = "#") ∧ Selector.parse? selector = none) ∨
    (∃ id, id ≠ "" ∧ trim selector = "#" ++ id ∧
      Selector.parse? selector = some (.identifier id)) ∨
    (trim selector ≠ "" ∧ (∀ id, trim selector ≠ "#" ++ id) ∧
      Selector.parse? selector = some (.name (lowercase (trim selector)))) := by
  rw [Selector.parse?, trim]
  split
  · rename_i h
    rw [h]
    exact .inl ⟨.inl rfl, rfl⟩
  · rename_i h
    rw [h]
    exact .inl ⟨.inr rfl, rfl⟩
  · rename_i id hne h
    refine .inr (.inl ⟨String.ofList id, ?_, ?_, rfl⟩)
    · intro hid
      exact hne (by simpa using congrArg String.toList hid)
    · rw [h]
      exact String.ofList_cons
  · rename_i hnil _ hsign
    refine .inr (.inr ⟨?_, ?_, rfl⟩)
    · simpa using hnil
    · intro id hid
      have hlist := congrArg String.toList hid
      rw [String.toList_ofList, String.toList_append] at hlist
      exact hsign _ hlist

/-- A text of which nothing is left, or nothing but `#`, asks for no element. -/
theorem not_asks {selector : String} (h : trim selector = "" ∨ trim selector = "#") (e : Element) :
    ¬ Asks selector e := by
  rintro (⟨id, hid, htrim, -⟩ | ⟨hne, hsign, -⟩)
  · rcases h with h | h
    · rw [h] at htrim
      exact absurd (congrArg String.toList htrim) (by simp)
    · rw [h] at htrim
      exact hid ((String.append_right_inj "#").mp (htrim.symm.trans String.append_empty.symm))
  · rcases h with h | h
    · exact hne h
    · exact hsign "" h

/-- **What the text of a selector asks is what it is read as.** -/
theorem asks_iff {selector : String} {e : Element} :
    Asks selector e ↔ ∃ s, Selector.parse? selector = some s ∧ s.accepts e.tag = true := by
  rcases parse?_cases selector with ⟨hempty, hread⟩ | ⟨id, hid, htrim, hread⟩ |
      ⟨hne, hsign, hread⟩
  · simp only [hread, reduceCtorEq, false_and, exists_false, iff_false]
    exact not_asks hempty e
  · simp only [hread, Option.some.injEq, exists_eq_left', Selector.accepts, decide_eq_true_eq,
      ← hasIdentifier_iff]
    constructor
    · rintro (⟨id', -, htrim', h⟩ | ⟨-, hsign, -⟩)
      · rw [htrim, String.append_right_inj] at htrim'
        rwa [htrim']
      · exact absurd htrim (hsign id)
    · intro h
      exact .inl ⟨id, hid, htrim, h⟩
  · simp only [hread, Option.some.injEq, exists_eq_left', Selector.accepts, decide_eq_true_eq]
    constructor
    · rintro (⟨id, -, htrim, -⟩ | ⟨-, -, hname⟩)
      · exact absurd htrim (hsign id)
      · exact hname
    · intro hname
      exact .inr ⟨hne, hsign, hname⟩

/-! ## The first element -/

/-- The first of a list with a property. -/
def IsFirst {α : Type} (p : α → Prop) (l : List α) (x : α) : Prop :=
  ∃ before after, l = before ++ x :: after ∧ p x ∧ ∀ y ∈ before, ¬ p y

/-- A selector that is read picks the first element of the listing that has what it looks for. -/
theorem select_eq_find? {selector : String} {s : Selector} (h : Selector.parse? selector = some s)
    (nodes : List Node) :
    select nodes selector = (elements nodes).find? fun e => s.accepts e.tag := by
  rw [select, h]
  exact search_eq_find? s.accepts nodes

theorem select_eq_some_iff {nodes : List Node} {selector : String} {e : Element} :
    select nodes selector = some e ↔ IsFirst (Asks selector) (elements nodes) e := by
  rw [IsFirst]
  cases hread : Selector.parse? selector with
  | none =>
    simp only [select, hread, asks_iff, reduceCtorEq, false_and, exists_false, and_false]
  | some s =>
    have hasks : ∀ e : Element, Asks selector e ↔ s.accepts e.tag = true := by
      intro e
      rw [asks_iff, hread]
      simp only [Option.some.injEq, exists_eq_left']
    rw [select_eq_find? hread, List.find?_eq_some_iff_append]
    simp only [hasks, Bool.not_eq_true', Bool.not_eq_true]
    constructor
    · rintro ⟨he, before, after, hlist, hbefore⟩
      exact ⟨before, after, hlist, he, hbefore⟩
    · rintro ⟨before, after, hlist, he, hbefore⟩
      exact ⟨he, before, after, hlist, hbefore⟩

theorem select_eq_none_iff {nodes : List Node} {selector : String} :
    select nodes selector = none ↔ ∀ e ∈ elements nodes, ¬ Asks selector e := by
  cases hread : Selector.parse? selector with
  | none => simp only [select, hread, asks_iff, reduceCtorEq, false_and, exists_false,
      not_false_eq_true, implies_true]
  | some s =>
    rw [select_eq_find? hread, List.find?_eq_none]
    simp only [asks_iff, hread, Option.some.injEq, exists_eq_left']

/-- **A selector picks the first element in the order of the source** that it asks for, of all
elements at any depth, each listed in front of what is in it. It picks none exactly if it asks for
none of them, and so it is if blank characters at its ends are all there is to it, or all but a
`#`. -/
theorem select_isFirst (nodes : List Node) (selector : String) :
    (∀ e, select nodes selector = some e ↔ IsFirst (Asks selector) (elements nodes) e) ∧
      (select nodes selector = none ↔ ∀ e ∈ elements nodes, ¬ Asks selector e) ∧
      (trim selector = "" ∨ trim selector = "#" → select nodes selector = none) := by
  refine ⟨fun e => select_eq_some_iff, select_eq_none_iff, ?_⟩
  intro hempty
  exact select_eq_none_iff.mpr fun e _ => not_asks hempty e

/-- A lone `#` between blank characters picks neither an element with an empty identifier nor one
of that name. -/
theorem select_isFirst_lone_sign :
    (trim " #\u00a0" = "" ∨ trim " #\u00a0" = "#") ∧
      select [.element ⟨"p", [⟨"id", "", {}⟩], {}⟩ [.element ⟨"#", [], {}⟩ []]] " #\u00a0" =
        none := by
  have hsign : trim " #\u00a0" = "" ∨ trim " #\u00a0" = "#" := .inr (by decide +kernel)
  exact ⟨hsign, (select_isFirst _ _).2.2 hsign⟩

end Stencil.Markup
