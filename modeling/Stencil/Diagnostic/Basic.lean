import Stencil.Span

/-!
# Diagnostics

A diagnostic says what was found wrong with a template, where, and how grave it is. Nothing that a
diagnostic reports stops a template from being compiled.

## Main definitions

* `Kind`, `Kind.severity`, `Kind.suppresses`: the kinds, in order of priority
* `Kind.summary`, `Kind.detailed`: their wording
* `Diagnostic`: a report with its place, related notes and a fix
* `errorCount`, `warningCount`, `hasErrors`: of a list of diagnostics
-/

namespace Stencil.Diagnostic

/-- How grave a diagnostic is. -/
inductive Severity where
  | error
  | warning
  deriving DecidableEq, Repr

/-- The word for a severity. -/
def Severity.name : Severity → String
  | error => "error"
  | warning => "warning"

/-- What may be wrong with a template, in order of priority. -/
inductive Kind where
  | unterminatedComment
  | unterminatedTag
  | unclosedElement
  | strayCloseTag
  | malformedAttribute
  | emptyTagName
  | unsupportedNodeKind
  | voidElementChildren
  | unmatchedBrace
  deriving DecidableEq, Repr

namespace Kind

/-- The kinds in order of priority. -/
def all : List Kind :=
  [unterminatedComment, unterminatedTag, unclosedElement, strayCloseTag, malformedAttribute,
    emptyTagName, unsupportedNodeKind, voidElementChildren, unmatchedBrace]

/-- The place of a kind in the order of priority. -/
def rank : Kind → Nat
  | unterminatedComment => 0
  | unterminatedTag => 1
  | unclosedElement => 2
  | strayCloseTag => 3
  | malformedAttribute => 4
  | emptyTagName => 5
  | unsupportedNodeKind => 6
  | voidElementChildren => 7
  | unmatchedBrace => 8

/-- Only what the end of the source cuts off is an error. -/
def severity : Kind → Severity
  | unterminatedComment | unterminatedTag => .error
  | _ => .warning

/-- Whether a diagnostic of one kind makes one of another kind at the same place needless. -/
def suppresses (a b : Kind) : Bool :=
  a.rank < b.rank

/-- The wording of a diagnostic without detail. -/
def summary : Kind → String
  | unterminatedComment => "unterminated comment"
  | unterminatedTag => "unterminated tag"
  | unclosedElement => "element is not closed"
  | strayCloseTag => "close tag has no matching open tag"
  | malformedAttribute => "malformed attribute ignored"
  | emptyTagName => "empty tag name"
  | unsupportedNodeKind => "node kind is not supported in templates"
  | voidElementChildren => "void element cannot have children"
  | unmatchedBrace => "unmatched brace is treated as literal text"

/-- The wording of a diagnostic with a detail. -/
def detailed (k : Kind) (detail : String) : String :=
  match k with
  | unclosedElement => "`<" ++ detail ++ ">` is not closed"
  | strayCloseTag => "`</" ++ detail ++ ">` has no matching open tag"
  | malformedAttribute => "malformed attribute `" ++ detail ++ "` ignored"
  | emptyTagName => "empty tag name; using `<" ++ detail ++ ">`"
  | voidElementChildren => "`<" ++ detail ++ ">` is a void element; children dropped"
  | _ => k.summary ++ ": " ++ detail

/-- The wording of a diagnostic, with its detail if it has one. -/
def message (k : Kind) : Option String → String
  | none => k.summary
  | some detail => k.detailed detail

end Kind

/-- A remark about another place. -/
structure Note where
  message : String
  span : Span
  deriving DecidableEq, Repr

/-- A change that mends what is wrong. -/
structure Fix where
  description : String
  replacement : String
  deriving DecidableEq, Repr

end Diagnostic

/-- A report of something wrong with a template. -/
structure Diagnostic where
  kind : Diagnostic.Kind
  span : Span
  message : String := kind.summary
  related : List Diagnostic.Note := []
  fix : Option Diagnostic.Fix := none
  deriving DecidableEq, Repr

namespace Diagnostic

/-- How grave a diagnostic is. -/
def severity (d : Diagnostic) : Severity :=
  d.kind.severity

/-- A diagnostic worded with a detail. -/
def about (kind : Kind) (span : Span) (detail : String) : Diagnostic :=
  { kind, span, message := kind.detailed detail }

/-- A diagnostic for a reader who does not see the source. -/
def plainText (d : Diagnostic) : String :=
  s!"{d.severity.name}: {d.message} at {d.span.start}..{d.span.stop}"

/-- Whether a diagnostic is an error. -/
def isError (d : Diagnostic) : Bool :=
  d.severity = .error

/-- Whether a diagnostic is a warning. -/
def isWarning (d : Diagnostic) : Bool :=
  d.severity = .warning

/-- The number of errors. -/
def errorCount (ds : List Diagnostic) : Nat :=
  ds.countP isError

/-- The number of warnings. -/
def warningCount (ds : List Diagnostic) : Nat :=
  ds.countP isWarning

/-- Whether there is an error. -/
def hasErrors (ds : List Diagnostic) : Bool :=
  ds.any isError

/-- Whether there is a warning. -/
def hasWarnings (ds : List Diagnostic) : Bool :=
  ds.any isWarning

end Diagnostic

end Stencil
