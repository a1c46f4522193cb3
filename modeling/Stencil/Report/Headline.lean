import Stencil.Text.Blank

/-!
# Headlines

The headlines of a printed report are its titles, the places they point to, the help it offers and
the summary at its end, without colours.

## Main definitions

* `withoutEscapes`: a text without the escape sequences of a terminal
* `headlines`: the headlines of a report
-/

namespace Stencil.Report

open Stencil.Text

/-- What follows the sequence that sets the colours of a terminal, if the text behind its first two
characters is one: numbers with semicolons between them, and a closing letter. -/
def afterEscape? (s : List Char) : Option (List Char) :=
  match s.dropWhile fun c => c.isDigit || c = ';' with
  | 'm' :: rest => some rest
  | _ => none

theorem afterEscape?_length {s rest : List Char} (h : afterEscape? s = some rest) :
    rest.length < s.length := by
  unfold afterEscape? at h
  split at h
  · rename_i r hr
    have := (List.dropWhile_suffix (l := s) fun c => c.isDigit || c = ';').length_le
    rw [hr, List.length_cons] at this
    cases h
    exact this
  · cases h

/-- A text without the escape sequences that set the colours of a terminal. -/
def withoutEscapes (s : List Char) : List Char :=
  match s with
  | [] => []
  | '\x1b' :: '[' :: rest =>
    match _h : afterEscape? rest with
    | some after => withoutEscapes after
    | none => '\x1b' :: '[' :: withoutEscapes rest
  | c :: rest => c :: withoutEscapes rest
termination_by s.length
decreasing_by
  · have := afterEscape?_length _h
    simp only [List.length_cons]
    omega
  · simp only [List.length_cons]
    omega
  · exact Nat.lt_succ_self _

/-- Whether a line is a title, a help or a place. Only places are indented. -/
def isHeadline (line : List Char) : Bool :=
  "error: ".toList.isPrefixOf line || "warning: ".toList.isPrefixOf line
    || "help: ".toList.isPrefixOf line
    || "--> ".toList.isPrefixOf (line.dropWhile isBlank)

/-- Whether a line counts errors or warnings. -/
def isSummary (line : List Char) : Bool :=
  line.head?.any Char.isDigit
    && [" error", " errors", " warning", " warnings"].any fun w => w.toList.isSuffixOf line

/-- The lines of a text. A line feed at the end begins no line. -/
def linesOf (s : String) : List String :=
  match (s.splitOn "\n").reverse with
  | "" :: rest => rest.reverse
  | lines => lines.reverse

/-- The headlines of a report. Only the last line is taken for a summary. -/
def headlines (report : String) : List String :=
  let lines := (linesOf report).map fun l => withoutEscapes l.toList
  let kept := lines.zipIdx.filter fun (l, i) =>
    isHeadline l || (i + 1 = lines.length && isSummary l)
  kept.map fun (l, _) => String.ofList (trimChars l)

end Stencil.Report
