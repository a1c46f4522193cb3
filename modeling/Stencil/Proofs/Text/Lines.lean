import Mathlib.Algebra.Order.BigOperators.Group.List
import Mathlib.Algebra.Order.Group.Nat
import Mathlib.Algebra.GroupWithZero.Nat
import Stencil.Text.Quoted

/-!
# Lines of a text

A text is written line by line, each line with a line feed behind it. What is written as one line
falls into several if it holds line feeds itself. Numbers and quoted literals hold none: a literal
escapes the line feeds of its text.

## Main definitions

* `newlines`: the number of line feeds in a text
* `unlines`, `endedLines`: lines as one text, and the lines of a text
* `linesMade`: the lines into which a text falls

## Main results

* `endedLines_unlines`: **the lines of a text are those into which its parts fall**
* `flatMap_linesMade_eq_iff`: parts are lines exactly if there is no line feed in them
* `newlines_quote`: **a quoted literal stands in one line**
-/

namespace Stencil.Text

/-! ## Lines -/

/-- The number of line feeds in a text. -/
def newlines (s : String) : Nat :=
  s.toList.count '\n'

@[simp] theorem newlines_append (s t : String) : newlines (s ++ t) = newlines s + newlines t := by
  rw [newlines, String.toList_append, List.count_append]
  rfl

theorem newlines_eq_zero_iff {s : String} : newlines s = 0 ↔ '\n' ∉ s.toList :=
  List.count_eq_zero

/-- Several texts in a row, each of which is ended by a line feed. -/
def unlines (texts : List String) : String :=
  String.join (texts.map (· ++ "\n"))

/-- The lines of a text in which each line is ended. -/
def endedLines (text : String) : List String :=
  (text.toList.splitOn '\n').dropLast.map String.ofList

/-- The lines that a text makes when it is ended: one more than it has line feeds. -/
def linesMade (s : String) : List String :=
  (s.toList.splitOn '\n').map String.ofList

theorem length_splitOn (s : List Char) : (s.splitOn '\n').length = s.count '\n' + 1 := by
  induction s with
  | nil => rfl
  | cons c s ih =>
    rw [List.splitOn_cons_eq_if_modifyHead]
    split
    · rename_i hc
      rw [List.length_cons, ih, beq_iff_eq.mp hc, List.count_cons_self]
    · rename_i hc
      rw [List.length_modifyHead, ih, List.count_cons_of_ne (by simpa using hc)]

theorem length_linesMade (s : String) : (linesMade s).length = newlines s + 1 := by
  rw [linesMade, List.length_map, length_splitOn, newlines]

theorem linesMade_of_notMem {s : String} (h : '\n' ∉ s.toList) : linesMade s = [s] := by
  rw [linesMade, List.splitOn_eq_singleton h, List.map_singleton, String.ofList_toList]

/-- **The lines of several texts in a row** are those that each of them makes. -/
theorem endedLines_unlines (texts : List String) :
    endedLines (unlines texts) = texts.flatMap linesMade := by
  have hsplit : (unlines texts).toList.splitOn '\n' =
      texts.flatMap (fun s => s.toList.splitOn '\n') ++ [[]] := by
    rw [unlines, String.toList_join, List.flatMap_map]
    induction texts with
    | nil => rfl
    | cons s texts ih =>
      rw [List.flatMap_cons, List.flatMap_cons, String.toList_append, List.append_assoc,
        List.append_assoc, ← ih]
      exact List.splitOn_append_cons_self _ _
  rw [endedLines, hsplit, List.dropLast_concat, List.map_flatMap]
  rfl

theorem flatMap_linesMade_of_notMem {texts : List String} (h : ∀ s ∈ texts, '\n' ∉ s.toList) :
    texts.flatMap linesMade = texts := by
  induction texts with
  | nil => rfl
  | cons s texts ih =>
    obtain ⟨hs, htexts⟩ := List.forall_mem_cons.mp h
    rw [List.flatMap_cons, linesMade_of_notMem hs, ih htexts, List.singleton_append]

theorem length_flatMap_linesMade (texts : List String) :
    (texts.flatMap linesMade).length = texts.length + (texts.map newlines).sum := by
  induction texts with
  | nil => rfl
  | cons s texts ih =>
    rw [List.flatMap_cons, List.length_append, length_linesMade, ih, List.length_cons,
      List.map_cons, List.sum_cons]
    omega

theorem sum_newlines_eq_zero_iff {texts : List String} :
    (texts.map newlines).sum = 0 ↔ ∀ s ∈ texts, '\n' ∉ s.toList := by
  rw [List.sum_eq_zero_iff, List.forall_mem_map]
  simp only [newlines_eq_zero_iff]

/-- **Texts are the lines that they make** exactly if there is no line feed in them. -/
theorem flatMap_linesMade_eq_iff {texts : List String} :
    texts.flatMap linesMade = texts ↔ (texts.map newlines).sum = 0 := by
  constructor
  · intro h
    have hlength := length_flatMap_linesMade texts
    rwa [h, Nat.left_eq_add] at hlength
  · intro h
    exact flatMap_linesMade_of_notMem (sum_newlines_eq_zero_iff.mp h)

/-- The line feeds of texts with something between them. -/
theorem newlines_intercalate {sep : String} (hsep : newlines sep = 0) (texts : List String) :
    newlines (sep.intercalate texts) = (texts.map newlines).sum := by
  induction texts with
  | nil => rfl
  | cons s texts ih =>
    cases texts with
    | nil => simp
    | cons t texts =>
      rw [String.intercalate_cons_cons, newlines_append, newlines_append, hsep, ih]
      rfl

/-! ## Words without line feeds -/

theorem notMem_toDigits {b : Nat} (hb : 1 < b) (n : Nat) : '\n' ∉ Nat.toDigits b n := by
  induction n using Nat.strong_induction_on with
  | _ n ih =>
    have hdigit : ∀ k, '\n' ≠ Nat.digitChar k := fun k => (Nat.digitChar_ne '\n' rfl).symm
    rw [Nat.toDigits_eq_if hb]
    split
    · rw [List.mem_singleton]
      exact hdigit n
    · have hlt : n / b < n := Nat.div_lt_self (by omega) hb
      rw [List.mem_append, List.mem_singleton]
      rintro (hfront | hlast)
      · exact ih _ hlt hfront
      · exact hdigit _ hlast

theorem notMem_quoteChar (c : Char) : '\n' ∉ quoteChar c := by
  unfold quoteChar
  iterate 6
    split
    · decide
  split
  · have hdigits : '\n' ∉ Nat.toDigits 16 c.toNat := notMem_toDigits (by decide) c.toNat
    simpa using hdigits
  · rename_i hfeed _ _ _ _
    rw [List.mem_singleton]
    exact Ne.symm hfeed

/-- **A quoted literal stands in one line.** -/
@[simp] theorem newlines_quote (s : String) : newlines (quote s) = 0 := by
  rw [newlines_eq_zero_iff, quote, String.toList_ofList, List.cons_append, List.mem_cons,
    List.mem_append, List.mem_flatMap]
  rintro (hopen | ⟨c, -, hc⟩ | hclose)
  · revert hopen
    decide
  · exact notMem_quoteChar c hc
  · revert hclose
    decide

@[simp] theorem newlines_repr (n : Nat) : newlines (Nat.repr n) = 0 := by
  rw [newlines_eq_zero_iff, Nat.repr_eq_ofList_toDigits, String.toList_ofList]
  exact notMem_toDigits (by decide) n

@[simp] theorem newlines_spaces (n : Nat) :
    newlines (String.ofList (List.replicate n ' ')) = 0 := by
  rw [newlines_eq_zero_iff, String.toList_ofList]
  intro h
  exact absurd (List.eq_of_mem_replicate h) (by decide)

end Stencil.Text
