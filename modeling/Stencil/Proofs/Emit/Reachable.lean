import Stencil.Proofs.Emit.Denotation

/-!
# Emitters that calls lead to

A caller may emit single operations and whole forests in any order, and go on after a call that
found a table full. Every call performs operations, and one that finds a table full stops in front
of the operation that it was to perform next. So an emitter that calls lead to is one that
successful operations lead to, reports apart, and what each of them keeps holds of it.

## Main definitions

* `Emit.after`, `Emit.overflows`: what a call leaves, and whether it ran out of 32 bits
* `Emitter.Reachable`: the emitters that calls lead to

## Main results

* `Emit.run_forM_eq_error`: operations in a row stop in front of the one that finds its table full
* `Emitter.Reachable.keeps`: **what every operation keeps holds of all emitters that calls lead
  to**
-/

namespace Stencil

open Stencil.Markup Stencil.Wire

namespace Emit

/-- The emitter that a call leaves, whether it succeeds or fails. -/
def after (act : Emit Unit) (e : Emitter) : Emitter :=
  match act.run e with
  | .ok _ e' => e'
  | .error _ e' => e'

/-- Whether a call fails since a section ran out of 32 bits. -/
def overflows (act : Emit Unit) (e : Emitter) : Bool :=
  match act.run e with
  | .ok _ _ => false
  | .error err _ => err.isLimit

section

variable {act : Emit Unit} {e e' : Emitter} {err : CompileError}

theorem after_of_ok (h : act.run e = .ok () e') : after act e = e' := by
  rw [after, h]

theorem after_of_error (h : act.run e = .error err e') : after act e = e' := by
  rw [after, h]

theorem overflows_of_error (h : act.run e = .error err e') : overflows act e = err.isLimit := by
  rw [overflows, h]

end

variable {c : Config} {e e' : Emitter} {ops : List Op} {err : CompileError}

/-- Operations in a row stop in front of the one that finds its table full. -/
theorem run_forM_eq_error (h : (ops.forM (emit c)).run e = .error err e')
    (hlimit : err.isLimit = false) :
    ∃ pre op post, ops = pre ++ op :: post ∧ (pre.forM (emit c)).run e = .ok () e' ∧
      (emit c op).run e' = .error err e' := by
  induction ops generalizing e with
  | nil => cases h
  | cons op ops ih =>
    rcases run_seq_eq_error.mp h with h | ⟨e₁, h₁, h₂⟩
    · rcases emit_eq_error h with ⟨rfl, -⟩ | htrue
      · exact ⟨[], op, ops, rfl, rfl, h⟩
      · rw [htrue] at hlimit
        cases hlimit
    · obtain ⟨pre, op', post, rfl, hpre, hop⟩ := ih h₂
      exact ⟨op :: pre, op', post, rfl, run_seq_eq_ok.mpr ⟨e₁, h₁, hpre⟩, hop⟩

/-- What every operation keeps is kept by operations in a row. -/
theorem keeps_forM {P : Emitter → Prop}
    (step : ∀ {e e' op}, P e → (emit c op).run e = .ok () e' → P e') (he : P e)
    (h : (ops.forM (emit c)).run e = .ok () e') : P e' := by
  induction ops generalizing e with
  | nil =>
    cases h
    exact he
  | cons op ops ih =>
    obtain ⟨e₁, h₁, h₂⟩ := run_seq_eq_ok.mp h
    exact ih (step he h₁) h₂

/-- What every operation and every report keeps is kept by a call that performs operations. -/
theorem Performs.keeps {act : Emit Unit} {ds : List Diagnostic} (ha : Performs c act ops ds)
    {P : Emitter → Prop} (note : ∀ {e} ds, P e → P (e.noting ds))
    (step : ∀ {e e' op}, P e → (emit c op).run e = .ok () e' → P e') (he : P e)
    (hlimit : overflows act e = false) : P (after act e) := by
  cases h : (ops.forM (emit c)).run e with
  | ok _ e' =>
    rw [after_of_ok (ha.ok h)]
    exact note ds (keeps_forM step he h)
  | error err e' =>
    obtain ⟨made, -, hr⟩ := ha.error h
    rw [overflows_of_error hr] at hlimit
    obtain ⟨pre, op, post, -, hpre, -⟩ := run_forM_eq_error h hlimit
    rw [after_of_error hr]
    exact note made (keeps_forM step he hpre)

end Emit

/-- The emitters that calls in a row lead to. A call emits an operation or a forest and may find a
table full, but none runs out of 32 bits. -/
inductive Emitter.Reachable (c : Config) : Emitter → Prop
  | fresh : Reachable c {}
  | emit {e : Emitter} (h : Reachable c e) (op : Op)
      (hlimit : Emit.overflows (Stencil.emit c op) e = false) :
      Reachable c (Emit.after (Stencil.emit c op) e)
  | emitNodes {e : Emitter} (h : Reachable c e) (nodes : List Node)
      (hlimit : Emit.overflows (Stencil.emitNodes c nodes) e = false) :
      Reachable c (Emit.after (Stencil.emitNodes c nodes) e)

/-- **What every operation keeps holds of all emitters that calls lead to**, if it holds of a fresh
one and does not depend on the reports. -/
theorem Emitter.Reachable.keeps {c : Config} {P : Emitter → Prop} (fresh : P {})
    (note : ∀ {e} ds, P e → P (e.noting ds))
    (step : ∀ {e e' op}, P e → (Stencil.emit c op).run e = .ok () e' → P e') {e : Emitter}
    (h : e.Reachable c) : P e := by
  induction h with
  | fresh => exact fresh
  | emit _ op hlimit ih => exact (Emit.performs_emit op).keeps note step ih hlimit
  | emitNodes _ nodes hlimit ih => exact (performs_emitNodes c nodes).keeps note step ih hlimit

end Stencil
