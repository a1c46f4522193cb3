import Mathlib.Data.Prod.Lex
import Mathlib.Order.Bounds.Basic
import Stencil.Diagnostic.Position
import Stencil.Proofs.Markup.Placement

/-!
# Positions tell offsets apart

A position is counted from the characters in front of it: its line from all line feeds among them,
its column from those behind the last line feed. It can as well be reached by walking over these
characters. Each of them leads to a later position, on the same line or on the next one, so that of
two boundaries of characters the later one has the later position, and no two have the same.

An offset inside a character, or behind the source, has the position of the last boundary that is
not behind it. It is found by going back.

## Main definitions

* `Position.key`: a position in the order of reading, by the line first
* `Position.next`: the position behind a character

## Main results

* `isGreatest_backUp`: going back ends at the last boundary
* `positionOf_eq_foldl`: **a position is counted as it is walked to**, for every offset
* `strictMonoOn_key_positionOf`: later boundaries have later positions
* `positionOf_locates`: **positions tell offsets apart**
-/

namespace Stencil.Diagnostic

open Stencil.Text
open Stencil.Markup (IsBoundary isBoundary_size utf8ByteSize_ofList)

/-! ## The order of reading -/

namespace Position

/-- A position in the order of reading: by the line first, and on one line by the column. -/
def key (p : Position) : ℕ ×ₗ ℕ :=
  toLex (p.line, p.column)

theorem key_lt_iff {p q : Position} :
    p.key < q.key ↔ p.line < q.line ∨ p.line = q.line ∧ p.column < q.column :=
  Prod.Lex.toLex_lt_toLex

/-- The position behind a character. -/
def next (p : Position) (c : Char) : Position :=
  if c = '\n' then ⟨p.line + 1, 1⟩ else ⟨p.line, p.column + 1⟩

/-- **A character leads to a later position.** -/
theorem key_lt_next (p : Position) (c : Char) : p.key < (p.next c).key := by
  rw [key_lt_iff, next]
  split
  · exact .inl (Nat.lt_succ_self p.line)
  · exact .inr ⟨rfl, Nat.lt_succ_self p.column⟩

theorem key_le_foldl_next (p : Position) (s : List Char) : p.key ≤ (s.foldl next p).key := by
  induction s generalizing p with
  | nil => exact le_rfl
  | cons c s ih => exact (p.key_lt_next c).le.trans (ih _)

/-- Characters in a row lead to a later position, if there are any. -/
theorem key_lt_foldl_next (p : Position) {s : List Char} (hs : s ≠ []) :
    p.key < (s.foldl next p).key := by
  obtain ⟨c, s, rfl⟩ := List.exists_cons_of_ne_nil hs
  exact (p.key_lt_next c).trans_le (key_le_foldl_next _ s)

/-- **Lines and columns are counted**: a line for each line feed, and a column for each character
behind the last line feed. -/
theorem foldl_next_eq_count (s : List Char) :
    s.foldl next {} =
      ⟨s.count '\n' + 1, (s.reverse.takeWhile (· ≠ '\n')).length + 1⟩ := by
  induction s using List.reverseRecOn with
  | nil => rfl
  | append_singleton s c ih =>
    rw [List.foldl_concat, ih, next, List.count_append, List.reverse_concat]
    by_cases hc : c = '\n'
    · subst hc
      simp
    · simp [hc]

end Position

/-! ## Boundaries -/

variable {source : String} {front : List Char}

/-- **The boundaries of a source** are where the characters of one of its fronts end. -/
theorem isBoundary_iff {o : Nat} :
    IsBoundary source o ↔ ∃ front, front <+: source.toList ∧ Utf8.size front = o := by
  constructor
  · intro h
    obtain ⟨front, back, rfl, hfront⟩ := String.Pos.Raw.isValid_iff_exists_append.mp h
    refine ⟨front.toList, ⟨back.toList, String.toList_append.symm⟩, ?_⟩
    rw [← utf8ByteSize_ofList, String.ofList_toList]
    exact congrArg String.Pos.Raw.byteIdx hfront.symm
  · rintro ⟨front, hfront, rfl⟩
    exact isBoundary_size hfront

theorem size_le_of_isPrefix {front front' : List Char} (h : front <+: front') :
    Utf8.size front ≤ Utf8.size front' := by
  obtain ⟨between, rfl⟩ := h
  rw [Utf8.size_append]
  exact Nat.le_add_right _ _

theorem isBoundary_zero : IsBoundary source 0 :=
  isBoundary_iff.mpr ⟨[], List.nil_prefix, rfl⟩

/-- **Going back ends at the last boundary** that is not behind the offset. -/
theorem isGreatest_backUp (source : String) (n : Nat) :
    IsGreatest {o | IsBoundary source o ∧ o ≤ n} (backUp source n) := by
  induction n with
  | zero => exact ⟨⟨isBoundary_zero, le_rfl⟩, fun _ h => h.2⟩
  | succ n ih =>
    rw [backUp]
    split
    · rename_i hvalid
      exact ⟨⟨String.Pos.Raw.isValid_eq_true_iff.mp hvalid, le_rfl⟩, fun _ h => h.2⟩
    · rename_i hvalid
      obtain ⟨⟨hboundary, hle⟩, hgreatest⟩ := ih
      refine ⟨⟨hboundary, hle.trans (Nat.le_succ n)⟩, ?_⟩
      rintro o ⟨ho, hon⟩
      -- The offset itself is no boundary, so that a boundary up to it is one in front of it.
      rcases Nat.le_succ_iff.mp hon with hon | rfl
      · exact hgreatest ⟨ho, hon⟩
      · exact absurd (String.Pos.Raw.isValid_eq_true_iff.mpr ho) hvalid

theorem backUp_of_isBoundary {n : Nat} (h : IsBoundary source n) : backUp source n = n :=
  (isGreatest_backUp source n).unique ⟨⟨h, le_rfl⟩, fun _ ho => ho.2⟩

/-! ## Positions of offsets -/

/-- **A position is counted as it is walked to.** -/
theorem positionOf_eq_foldl (source : String) (offset : Nat) :
    positionOf source offset = (textBefore source offset).foldl Position.next {} :=
  (Position.foldl_next_eq_count _).symm

theorem textBefore_size (h : front <+: source.toList) :
    textBefore source (Utf8.size front) = front := by
  have hboundary := isBoundary_size h
  have hle : Utf8.size front ≤ source.utf8ByteSize := by
    have hsize := size_le_of_isPrefix h
    rwa [← utf8ByteSize_ofList source.toList, String.ofList_toList] at hsize
  obtain ⟨back, hsource⟩ := h
  rw [textBefore, min_eq_left hle, backUp_of_isBoundary hboundary, ← hsource, Utf8.cut_size_append]

/-- The position behind a front of a source. -/
theorem positionOf_size (h : front <+: source.toList) :
    positionOf source (Utf8.size front) = front.foldl Position.next {} := by
  rw [positionOf_eq_foldl, textBefore_size h]

/-- An offset has the position of the last boundary that is not behind it. -/
theorem positionOf_backUp (source : String) (offset : Nat) :
    positionOf source offset =
      positionOf source (backUp source (min offset source.utf8ByteSize)) := by
  obtain ⟨⟨hboundary, hle⟩, -⟩ := isGreatest_backUp source (min offset source.utf8ByteSize)
  have hsame : textBefore source (backUp source (min offset source.utf8ByteSize)) =
      textBefore source offset := by
    rw [textBefore, min_eq_left (hle.trans (min_le_right _ _)), backUp_of_isBoundary hboundary]
    rfl
  rw [positionOf, positionOf, hsame]

/-- **Later boundaries have later positions.** -/
theorem strictMonoOn_key_positionOf (source : String) :
    StrictMonoOn (fun o => (positionOf source o).key) {o | IsBoundary source o} := by
  intro a ha b hb hab
  obtain ⟨front, hfront, rfl⟩ := isBoundary_iff.mp ha
  obtain ⟨front', hfront', rfl⟩ := isBoundary_iff.mp hb
  show (positionOf source _).key < (positionOf source _).key
  rw [positionOf_size hfront, positionOf_size hfront']
  rcases List.prefix_or_prefix_of_prefix hfront hfront' with ⟨between, rfl⟩ | h
  · rw [List.foldl_append]
    apply Position.key_lt_foldl_next
    rintro rfl
    rw [List.append_nil] at hab
    exact lt_irrefl _ hab
  · exact absurd (size_le_of_isPrefix h) (Nat.not_le_of_lt hab)

/-- **Positions tell offsets apart.** A source begins on line 1 in column 1. A line feed leads to
the first column of the next line, and any other character to the next column of its line. An
offset has the position of the last boundary of characters that is neither behind it nor behind the
source. Of two boundaries the later one has the later position in the order of reading, so that no
two have the same. -/
theorem positionOf_locates (source : String) :
    positionOf source 0 = ⟨1, 1⟩ ∧
      (∀ front c back, source.toList = front ++ c :: back →
        positionOf source (Utf8.size front + c.utf8Size) =
          if c = '\n' then ⟨(positionOf source (Utf8.size front)).line + 1, 1⟩
          else ⟨(positionOf source (Utf8.size front)).line,
            (positionOf source (Utf8.size front)).column + 1⟩) ∧
      (∀ offset, ∃ o,
        IsGreatest {o | IsBoundary source o ∧ o ≤ min offset source.utf8ByteSize} o ∧
          positionOf source offset = positionOf source o) ∧
      StrictMonoOn (fun o => (positionOf source o).key) {o | IsBoundary source o} ∧
      Set.InjOn (positionOf source) {o | IsBoundary source o} := by
  have hmono := strictMonoOn_key_positionOf source
  refine ⟨?_, ?_, ?_, hmono, ?_⟩
  · exact positionOf_size (List.nil_prefix : [] <+: source.toList)
  · intro front c back hsource
    have hfront : front <+: source.toList := ⟨c :: back, hsource.symm⟩
    have hbehind : front ++ [c] <+: source.toList := ⟨back, by rw [hsource, List.append_assoc]; rfl⟩
    have hsize : Utf8.size front + c.utf8Size = Utf8.size (front ++ [c]) := by
      rw [Utf8.size_append, Utf8.size_cons, Utf8.size_nil, Nat.add_zero]
    rw [hsize, positionOf_size hbehind, positionOf_size hfront, List.foldl_concat]
    rfl
  · intro offset
    exact ⟨_, isGreatest_backUp source _, positionOf_backUp source offset⟩
  · intro a ha b hb heq
    exact hmono.injOn ha hb (congrArg Position.key heq)

/-- A character of two bytes and a line feed: an offset inside the character, and one that lies far
behind the source. -/
theorem positionOf_locates_accent :
    "ab\nçd\n".toList = ['a', 'b', '\n'] ++ 'ç' :: ['d', '\n'] ∧
      positionOf "ab\nçd\n" 5 = ⟨2, 2⟩ ∧ positionOf "ab\nçd\n" 4 = ⟨2, 1⟩ ∧
      positionOf "ab\nçd\n" 100 = ⟨3, 1⟩ ∧ (⟨2, 1⟩ : Position).key < (⟨2, 2⟩ : Position).key ∧
      ∃ o, IsGreatest {o | IsBoundary "ab\nçd\n" o ∧ o ≤ min 4 "ab\nçd\n".utf8ByteSize} o ∧
        positionOf "ab\nçd\n" 4 = positionOf "ab\nçd\n" o := by
  obtain ⟨-, hnext, hfloor, hmono, -⟩ := positionOf_locates "ab\nçd\n"
  have hsource : "ab\nçd\n".toList = ['a', 'b', '\n'] ++ 'ç' :: ['d', '\n'] := by decide
  have hnext' := hnext _ _ _ hsource
  refine ⟨hsource, hnext'.trans (by decide +kernel), by decide +kernel, by decide +kernel, ?_,
    hfloor 4⟩
  have hthree : ['a', 'b', '\n'] <+: "ab\nçd\n".toList := ⟨_, hsource.symm⟩
  have hfive : ['a', 'b', '\n', 'ç'] <+: "ab\nçd\n".toList := ⟨_, hsource.symm⟩
  have hlt : (positionOf "ab\nçd\n" 3).key < (positionOf "ab\nçd\n" 5).key :=
    hmono (isBoundary_size hthree) (isBoundary_size hfive) (by decide)
  exact hlt

end Stencil.Diagnostic
