import Mathlib.Data.List.TakeWhile
import Stencil.Markup.Reference

/-!
# Writing references

A writer puts references for the ampersand, which begins references, and for one more character
that the place does not allow: a bracket in text, a quote in a value. Decoding gives the text back,
and the character does not stand in what is written.

## Main definitions

* `Mark`, `Mark.reference`: a character that is written as a reference
* `Mark.escape`: a text written where a mark may not stand

## Main results

* `decodeChars_cons_of_ne`, `decodeChars_ampersand`: decoding character by character
* `front?_append`: the reference that ends at the first semicolon
* `Mark.decodeChars_escape`: decoding gives a text back from what is written for it
* `Mark.notMem_escape`: what is written for a text does not hold the mark
-/

namespace Stencil.Markup

namespace Reference

variable {s tail after body : List Char} {c d : Char}

/-! ## Decoding character by character -/

theorem decodeChars_of_dropWhile_nil (h : s.dropWhile (· ≠ '&') = []) : decodeChars s = s := by
  rw [decodeChars]
  split
  · rfl
  · rename_i hd
    rw [h] at hd
    cases hd

theorem decodeChars_of_front? (h : s.dropWhile (· ≠ '&') = d :: tail)
    (hf : front? tail = some (c, after)) :
    decodeChars s = s.takeWhile (· ≠ '&') ++ c :: decodeChars after := by
  rw [decodeChars]
  split
  · rename_i hd
    rw [h] at hd
    cases hd
  · rename_i hd
    obtain ⟨rfl, rfl⟩ := List.cons.inj (h.symm.trans hd)
    split
    · rename_i hc
      cases hf.symm.trans hc
      rfl
    · rename_i hc
      rw [hf] at hc
      cases hc

theorem decodeChars_of_front?_none (h : s.dropWhile (· ≠ '&') = d :: tail)
    (hf : front? tail = none) :
    decodeChars s = s.takeWhile (· ≠ '&') ++ '&' :: decodeChars tail := by
  rw [decodeChars]
  split
  · rename_i hd
    rw [h] at hd
    cases hd
  · rename_i hd
    obtain ⟨rfl, rfl⟩ := List.cons.inj (h.symm.trans hd)
    split
    · rename_i hc
      rw [hf] at hc
      cases hc
    · rfl

@[simp] theorem decodeChars_nil : decodeChars [] = [] :=
  decodeChars_of_dropWhile_nil rfl

/-- A character that is no ampersand stands for itself. -/
theorem decodeChars_cons_of_ne (hc : c ≠ '&') (s : List Char) :
    decodeChars (c :: s) = c :: decodeChars s := by
  have hd : (c :: s).dropWhile (· ≠ '&') = s.dropWhile (· ≠ '&') :=
    List.dropWhile_cons_of_pos (by simpa using hc)
  have ht : (c :: s).takeWhile (· ≠ '&') = c :: s.takeWhile (· ≠ '&') :=
    List.takeWhile_cons_of_pos (by simpa using hc)
  cases h : s.dropWhile (· ≠ '&') with
  | nil => rw [decodeChars_of_dropWhile_nil h, decodeChars_of_dropWhile_nil (hd.trans h)]
  | cons d tail =>
    cases hf : front? tail with
    | none =>
      rw [decodeChars_of_front?_none h hf, decodeChars_of_front?_none (hd.trans h) hf, ht,
        List.cons_append]
    | some p =>
      rw [decodeChars_of_front? h hf, decodeChars_of_front? (hd.trans h) hf, ht, List.cons_append]

/-- A reference stands for its character. -/
theorem decodeChars_ampersand (hf : front? tail = some (c, after)) :
    decodeChars ('&' :: tail) = c :: decodeChars after :=
  decodeChars_of_front? (s := '&' :: tail) rfl hf

/-- An ampersand that begins no reference stands for itself. -/
theorem decodeChars_ampersand_of_none (hf : front? tail = none) :
    decodeChars ('&' :: tail) = '&' :: decodeChars tail :=
  decodeChars_of_front?_none (s := '&' :: tail) rfl hf

theorem decodeChars_of_notMem (h : '&' ∉ s) : decodeChars s = s := by
  apply decodeChars_of_dropWhile_nil
  rw [List.dropWhile_eq_nil_iff]
  intro c hc
  exact decide_eq_true fun hamp => h (hamp ▸ hc)

/-- A reference ends at the first semicolon. -/
theorem front?_append (hbody : ';' ∉ body) (after : List Char) :
    front? (body ++ ';' :: after) = (referent? body).map (·, after) := by
  have hchars : ∀ c ∈ body, decide (c ≠ ';') = true := by
    intro c hc
    exact decide_eq_true fun h => hbody (h ▸ hc)
  rw [front?, List.dropWhile_append_of_pos hchars, List.takeWhile_append_of_pos hchars,
    List.dropWhile_cons_of_neg (by simp), List.takeWhile_cons_of_neg (by simp), List.append_nil]

end Reference

/-! ## Marks -/

/-- A character that is written as a reference, with the name of that reference. -/
structure Mark where
  char : Char
  name : List Char
  referent : Reference.referent? name = some char
  name_closed : ';' ∉ name

namespace Mark

/-- The ampersand, which begins references. -/
def ampersand : Mark := ⟨'&', ['a', 'm', 'p'], rfl, by decide⟩

/-- The bracket that begins constructs. -/
def bracket : Mark := ⟨'<', ['l', 't'], rfl, by decide⟩

/-- The quote that ends values. -/
def quote : Mark := ⟨'"', ['q', 'u', 'o', 't'], rfl, by decide⟩

/-- The reference for a mark. -/
def reference (m : Mark) : List Char :=
  '&' :: (m.name ++ [';'])

/-- A character where a mark may not stand: the ampersand and the mark are written as references,
every other character as itself. -/
def escapeChar (m : Mark) (c : Char) : List Char :=
  if c = '&' then ampersand.reference else if c = m.char then m.reference else [c]

/-- A text where a mark may not stand. -/
def escape (m : Mark) (s : List Char) : List Char :=
  s.flatMap m.escapeChar

theorem decodeChars_reference (m : Mark) (s : List Char) :
    Reference.decodeChars (m.reference ++ s) = m.char :: Reference.decodeChars s := by
  have hfront : Reference.front? (m.name ++ ';' :: s) = some (m.char, s) := by
    rw [Reference.front?_append m.name_closed, m.referent]
    rfl
  rw [reference, List.cons_append, List.append_assoc]
  exact Reference.decodeChars_ampersand hfront

/-- **Decoding gives a text back** from what is written for it. -/
theorem decodeChars_escape (m : Mark) (s : List Char) :
    Reference.decodeChars (m.escape s) = s := by
  induction s with
  | nil => exact Reference.decodeChars_nil
  | cons c s ih =>
    rw [escape, List.flatMap_cons, escapeChar]
    split
    · rename_i hc
      rw [decodeChars_reference, hc]
      exact congrArg _ ih
    · rename_i hamp
      split
      · rename_i hc
        rw [decodeChars_reference, hc]
        exact congrArg _ ih
      · exact (Reference.decodeChars_cons_of_ne hamp _).trans (congrArg _ ih)

/-- What is written for a text does not hold the mark, if references do not. -/
theorem notMem_escape (m : Mark) (hm : m.char ∉ m.reference)
    (ha : m.char ∉ ampersand.reference) (s : List Char) : m.char ∉ m.escape s := by
  intro h
  obtain ⟨c, -, hc⟩ := List.mem_flatMap.mp h
  rw [escapeChar] at hc
  split at hc
  · exact ha hc
  split at hc
  · exact hm hc
  · rename_i hne
    exact hne (List.mem_singleton.mp hc).symm

theorem escape_ne_nil (m : Mark) {s : List Char} (h : s ≠ []) : m.escape s ≠ [] := by
  cases s with
  | nil => exact absurd rfl h
  | cons c s =>
    intro hnil
    rw [escape, List.flatMap_cons, escapeChar] at hnil
    split at hnil
    · cases hnil
    split at hnil
    · cases hnil
    · cases hnil

theorem bracket_notMem_escape (s : List Char) : '<' ∉ bracket.escape s :=
  bracket.notMem_escape (by decide) (by decide) s

theorem quote_notMem_escape (s : List Char) : '"' ∉ quote.escape s :=
  quote.notMem_escape (by decide) (by decide) s

end Mark

end Stencil.Markup
