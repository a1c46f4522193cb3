import Stencil.Proofs.Emit.Denotation

/-!
# Images are canonical

An image holds nothing but its operations. Order of interning, places in tables and the layout of
the value parts all follow from the operations in their order, and nothing else of the forest that
was compiled is left in the bytes. So the operations that a reader finds in an image can be emitted
one by one into a fresh emitter, which then has the same image, and two forests have the same image
exactly if they denote the same operations.

## Main definitions

* `Image.read`: the operations that a reader finds in a byte string

## Main results

* `emitEach_of_forM`: operations that are emitted in a row are calls that all succeed
* `forM_emit_of_compile`: a compiled forest is the image of its operations
* `emitEach_read_compile`: **emitting what was read from an image gives the image again**
-/

namespace Stencil

open Stencil.Markup Stencil.Wire

/-- The operations that a reader finds in a byte string. -/
def Wire.Image.read (bytes : List UInt8) : Except ImageError (List Op) :=
  (load bytes).bind decode

variable {c : Config} {e e' : Emitter} {ops : List Op}

/-- Operations that are emitted in a row are calls that all succeed. -/
theorem emitEach_of_forM (h : (ops.forM (emit c)).run e = .ok () e') :
    emitEach c ops e = (ops.map (·, none), e') := by
  induction ops generalizing e with
  | nil =>
    cases h
    rfl
  | cons op ops ih =>
    obtain ⟨e₁, h₁, h₂⟩ := Emit.run_seq_eq_ok.mp h
    rw [emitEach_cons_of_ok h₁, ih h₂, List.map_cons]

/-- An action that performs operations succeeds only if they do, and leaves what they leave and its
reports. -/
theorem Emit.Performs.forM_eq_ok {act : Emit Unit} {ds : List Diagnostic}
    (ha : Performs c act ops ds) (h : act.run e = .ok () e') :
    ∃ e₁, (ops.forM (emit c)).run e = .ok () e₁ ∧ e' = e₁.noting ds := by
  cases hops : (ops.forM (emit c)).run e with
  | ok _ e₁ =>
    rw [ha.ok hops] at h
    cases h
    exact ⟨e₁, rfl, rfl⟩
  | error err e₁ =>
    obtain ⟨made, -, hr⟩ := ha.error hops
    rw [hr] at h
    cases h

/-- A compiled forest is the image of an emitter into which its operations were emitted. -/
theorem forM_emit_of_compile {nodes : List Node} {compiled : Compiled}
    (h : compile c nodes = .ok compiled) :
    ∃ e, ((denoteAll c nodes).forM (emit c)).run {} = .ok () e ∧
      compiled.bytes = e.compiled.bytes := by
  obtain ⟨e', hr, rfl⟩ := run_of_compile h
  obtain ⟨e, hops, rfl⟩ := (performs_emitNodes c nodes).forM_eq_ok hr
  exact ⟨e, hops, rfl⟩

/-- The operations that are read from a compiled forest are those that the forest denotes. -/
theorem read_of_compile {nodes : List Node} {compiled : Compiled}
    (h : compile c nodes = .ok compiled) :
    Image.read compiled.bytes = .ok (denoteAll c nodes) := by
  obtain ⟨e, hops, hbytes⟩ := forM_emit_of_compile h
  obtain ⟨hcarries, -⟩ := Emitter.carries_nil.forM_emit hops
  rw [hbytes]
  show (Image.load e.image.bytes).bind Image.decode = .ok (denoteAll c nodes)
  rw [hcarries.load]
  exact hcarries.decode

/-- The operations that a compiled forest denotes are emitted into a fresh emitter without a
failure, and the emitter has the bytes of the compiled forest. -/
theorem emitEach_of_compile {nodes : List Node} {compiled : Compiled}
    (h : compile c nodes = .ok compiled) :
    (emitEach c (denoteAll c nodes) {}).1 = (denoteAll c nodes).map (·, none) ∧
      (emitEach c (denoteAll c nodes) {}).2.compiled.bytes = compiled.bytes := by
  obtain ⟨e, hops, hbytes⟩ := forM_emit_of_compile h
  rw [emitEach_of_forM hops]
  exact ⟨rfl, hbytes.symm⟩

/-- **Emitting what was read from an image gives the image again.** The operations that are read
from a compiled forest are emitted into a fresh emitter without a failure, and the emitter has the
bytes that they were read from. So two forests are compiled to the same bytes exactly if the same
operations are read from both. -/
theorem emitEach_read_compile (c : Config) :
    (∀ nodes compiled, compile c nodes = .ok compiled →
      ∃ ops, Image.read compiled.bytes = .ok ops ∧
        (emitEach c ops {}).1 = ops.map (·, none) ∧
        (emitEach c ops {}).2.compiled.bytes = compiled.bytes) ∧
    ∀ nodes nodes' compiled compiled', compile c nodes = .ok compiled →
      compile c nodes' = .ok compiled' →
      (compiled.bytes = compiled'.bytes ↔
        Image.read compiled.bytes = Image.read compiled'.bytes) := by
  constructor
  · intro nodes compiled h
    exact ⟨denoteAll c nodes, read_of_compile h, emitEach_of_compile h⟩
  · intro nodes nodes' compiled compiled' h h'
    constructor
    · intro heq
      rw [heq]
    · intro heq
      -- The bytes are a function of the operations, which are the same.
      have hops : denoteAll c nodes = denoteAll c nodes' := by
        rw [read_of_compile h, read_of_compile h'] at heq
        exact Except.ok.inj heq
      rw [← (emitEach_of_compile h).2, ← (emitEach_of_compile h').2, hops]

/-- Two forests that differ in letter case, in a comment, in blank text and in where a text is cut
are compiled to the same bytes, and what is read from them is emitted to these bytes again. -/
theorem emitEach_read_compile_twin_forests :
    ∃ compiled compiled',
      compile {} [.element { name := " P ", attributes := [⟨"class", "p \x7bp\x7d", {}⟩] }
          [.text " " {}, .comment "c" {}, .text "p\x7bq\x7d" {}]] = .ok compiled ∧
      compile {} [.element { name := "p", attributes := [⟨"class", "p \x7bp\x7d", {}⟩] }
          [.text "p" {}, .text "\x7bq\x7d" {}]] = .ok compiled' ∧
      compiled.bytes = compiled'.bytes ∧
      ∃ ops, Image.read compiled.bytes = .ok ops ∧
        (emitEach {} ops {}).1 = ops.map (·, none) ∧
        (emitEach {} ops {}).2.compiled.bytes = compiled.bytes := by
  generalize hr : compile _ [.element { name := " P ", attributes := _ } _] = r
  generalize hr' : compile _ [.element { name := "p", attributes := _ } _] = r'
  have hok : r.toOption.isSome ∧ r'.toOption.isSome := by
    rw [← hr, ← hr']
    decide +kernel
  cases r with
  | error err => cases hok.1
  | ok compiled =>
    cases r' with
    | error err => cases hok.2
    | ok compiled' =>
      refine ⟨compiled, compiled', rfl, rfl, ?_, (emitEach_read_compile {}).1 _ _ hr⟩
      refine ((emitEach_read_compile {}).2 _ _ _ _ hr hr').mpr ?_
      rw [read_of_compile hr, read_of_compile hr']
      decide +kernel

end Stencil
