import Stencil.Emit.Compile
import Stencil.Markup.Selector

/-!
# Hosting templates

A host serves the templates of a document to a caller that owns the memory. First the caller asks
for the size of a template, which compiles and caches it; then it hands over room for a copy. A
copy empties the cache, and so does a request that fails.

## Main definitions

* `Host`, `Host.size`, `Host.copy`: the two phases
* `TransportError`: why a phase fails
-/

namespace Stencil

open Stencil.Markup

/-- Why a template is not served. -/
inductive TransportError where
  | nothingCached
  | tooSmall (needed available : Nat)
  | notFound (selector : String)
  | compile (error : CompileError)
  deriving DecidableEq, Repr

/-- The wording of a cause. -/
def TransportError.message : TransportError → String
  | nothingCached => "no encoded template is cached"
  | tooSmall needed available =>
    s!"destination holds {available} bytes, template needs {needed}"
  | notFound selector => s!"template not found: {selector}"
  | compile error => s!"template compile failed: {error.message}"

/-- A document of templates, and the bytes of the one asked for last. -/
structure Host where
  document : Document
  config : Config := {}
  cached : Option (List UInt8) := none

namespace Host

/-- The host of a source. -/
def ofSource (config : Config) (source : String) : Host :=
  { document := parse source, config }

/-- The bytes of the template that a selector picks. -/
def template (h : Host) (selector : String) : Except TransportError (List UInt8) :=
  match select h.document.nodes selector with
  | none => .error (.notFound selector)
  | some element =>
    match compile h.config element.children with
    | .error error => .error (.compile error)
    | .ok compiled => .ok compiled.bytes

/-- Compiles a template, caches it, and gives its size. A request that fails empties the cache. -/
def size (h : Host) (selector : String) : Except TransportError Nat × Host :=
  match h.template selector with
  | .error error => (.error error, { h with cached := none })
  | .ok bytes => (.ok bytes.length, { h with cached := some bytes })

/-- Copies the cached template to the front of a destination: the size of the copy, the
destination after it, and the host with its cache emptied. A destination that is too small leaves
all as it was. -/
def copy (h : Host) (destination : List UInt8) :
    Except TransportError Nat × List UInt8 × Host :=
  match h.cached with
  | none => (.error .nothingCached, destination, h)
  | some bytes =>
    if destination.length < bytes.length then
      (.error (.tooSmall bytes.length destination.length), destination, h)
    else (.ok bytes.length, bytes ++ destination.drop bytes.length, { h with cached := none })

/-- A size without its reason for failing: zero. -/
def orZero : Except TransportError Nat → Nat
  | .ok n => n
  | .error _ => 0

end Host

end Stencil
