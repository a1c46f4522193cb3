import Stencil.Binding
import Stencil.Emit.Emitter
import Stencil.Markup.Tree

/-!
# Compiling a forest

A forest is compiled in the order of its source. An element is opened, its attributes are
attached, its children follow unless it is void, and it is closed. Text becomes its segments, and
comments vanish.

## Main definitions

* `Pending`, `emitPending`: what waits to be compiled, in a list
* `emitNodes`: the operations of a forest
* `compile`: the image of a forest
* `compileSource`: the image of a source, with all diagnostics
-/

namespace Stencil

open Stencil.Markup Stencil.Text

/-- A compiled template: the bytes of its image, and what was reported on the way. -/
structure Compiled where
  bytes : List UInt8
  diagnostics : List Diagnostic

/-- The tag under which an element is compiled. -/
def tagName (c : Config) (name : String) : String :=
  if isBlankText name then lowercase c.placeholder else lowercase (trim name)

/-- Emits an attribute, and reports braces of it that belong to no placeholder. -/
def emitAttribute (c : Config) (a : Attribute) : Emit Unit := do
  if Placeholder.hasUnmatchedBrace a.name || Placeholder.hasUnmatchedBrace a.value then
    Emit.report { kind := .unmatchedBrace, span := a.span }
  emit c (Binding.classify a.name a.value).op

/-- The operation of a segment of text. -/
def segmentOp : Segment → Op
  | .static s => .text s
  | .dynamic f => .dynText f

/-- Emits text that is not blank, and reports braces of it that belong to no placeholder. -/
def emitText (c : Config) (s : String) (span : Span) : Emit Unit :=
  if isBlankText s then pure ()
  else do
    if Placeholder.hasUnmatchedBrace s then
      Emit.report { kind := .unmatchedBrace, span }
    (Placeholder.textSegments s).forM fun segment => emit c (segmentOp segment)

/-- The operation that ends an element. -/
def closeOp (c : Config) (void : Bool) : Op :=
  if void && c.closeMode = .voidOpcode then .selfClosing else .tagClose

/-- Opens an element and attaches its attributes. -/
def emitTag (c : Config) (t : Tag) (hasChildren : Bool) : Emit Unit := do
  let tag := tagName c t.name
  if isBlankText t.name then
    Emit.report (.about .emptyTagName t.span tag)
  emit c (.tagOpen tag)
  t.attributes.forM (emitAttribute c)
  if isVoid tag && hasChildren then
    Emit.report (.about .voidElementChildren t.span tag)

/-- What waits to be compiled: a node, or the end of an element whose children stand in front. -/
inductive Pending where
  | node (node : Node)
  | close (void : Bool)

/-- The nodes of a forest, as they wait. -/
def Pending.ofNodes (nodes : List Node) : List Pending :=
  nodes.map .node

/-- A measure of what is still to be done. An element weighs more than its children and its end. -/
def Pending.weightAll : List Pending → Nat
  | [] => 0
  | .node n :: rest => 2 * n.count + weightAll rest
  | .close _ :: rest => 1 + weightAll rest

theorem Pending.weightAll_ofNodes_append (nodes : List Node) (rest : List Pending) :
    weightAll (ofNodes nodes ++ rest) = 2 * countAll nodes + weightAll rest := by
  induction nodes with
  | nil => exact (Nat.zero_add _).symm
  | cons n nodes ih =>
    rw [ofNodes, List.map_cons, List.cons_append, ← ofNodes, weightAll, ih, countAll, Nat.mul_add,
      Nat.add_assoc]

/-- Emits what waits, the first of it first. An element is opened, and then its children and its end
wait in front of the rest. What waits is a list, so that the depth of a forest does not matter. -/
def emitPending (c : Config) (pending : List Pending) : Emit Unit :=
  match pending with
  | [] => pure ()
  | .close void :: rest => do
    emit c (closeOp c void)
    emitPending c rest
  | .node (.element t children) :: rest => do
    emitTag c t !children.isEmpty
    let void := isVoid (tagName c t.name)
    -- The children of a void element are dropped, which `emitTag` has reported.
    if void then emitPending c (.close void :: rest)
    else emitPending c (Pending.ofNodes children ++ .close void :: rest)
  | .node (.text s span) :: rest => do
    emitText c s span
    emitPending c rest
  | .node (.comment _ _) :: rest => emitPending c rest
  | .node (.other kind _ span) :: rest => do
    Emit.report (.about .unsupportedNodeKind span kind.name)
    emitPending c rest
termination_by Pending.weightAll pending
decreasing_by
  all_goals
    simp only [Pending.weightAll_ofNodes_append, Pending.weightAll, Node.count]
    omega

/-- Emits the nodes of a forest. -/
def emitNodes (c : Config) (nodes : List Node) : Emit Unit :=
  emitPending c (Pending.ofNodes nodes)

/-- The compiled form of what an emitter holds. -/
def Emitter.compiled (e : Emitter) : Compiled :=
  ⟨e.image.bytes, e.diagnostics.toList⟩

/-- The compiled form of a forest. -/
def compile (c : Config) (nodes : List Node) : Except CompileError Compiled :=
  match (emitNodes c nodes).run {} with
  | .ok _ e => .ok e.compiled
  | .error err _ => .error err

/-- The compiled form of a source, with the reports of parsing in front. -/
def compileSource (c : Config) (source : String) : Except CompileError Compiled :=
  let document := parse source
  (compile c document.nodes).map fun compiled =>
    { compiled with diagnostics := document.diagnostics ++ compiled.diagnostics }

end Stencil
