import Stencil.Proofs.Emit.Step

/-!
# Actions that perform operations

Much of what an emitter is asked to do is to emit some operations in a row and to make some reports
in between. Such an action performs a list of operations: whatever the emitter, it ends as emitting
the operations one by one ends, in success or in the same failure, with some reports more. Emitting
an operation looks neither at the reports nor at the instructions that are there, so that actions in
a row perform their operations in a row.

## Main definitions

* `Emitter.recast`, `Emit.Commutes`: changes of an emitter, and actions that do not see one
* `Emitter.noting`: an emitter with more reports
* `Emit.Silent`: an action that makes no reports and does not look at them
* `Emit.Performs`: an action that does what emitting a list of operations does

## Main results

* `Emit.commutes_emit`: emitting an operation does not look at instructions and reports
* `Emit.silent_forM_emit`: emitting operations in a row is silent
* `Emit.Performs.seq`: actions in a row perform their operations in a row
-/

namespace Stencil

open Stencil.Wire

namespace Emitter

/-- An emitter with its instructions and its reports changed. -/
def recast (f : Array Instr → Array Instr) (g : Array Diagnostic → Array Diagnostic)
    (e : Emitter) : Emitter :=
  { e with instructions := f e.instructions, diagnostics := g e.diagnostics }

@[simp] theorem strings_recast (f : Array Instr → Array Instr)
    (g : Array Diagnostic → Array Diagnostic) (e : Emitter) : (e.recast f g).strings = e.strings :=
  rfl

@[simp] theorem parts_recast (f : Array Instr → Array Instr)
    (g : Array Diagnostic → Array Diagnostic) (e : Emitter) : (e.recast f g).parts = e.parts :=
  rfl

/-- An emitter with more reports. -/
def noting (e : Emitter) (ds : List Diagnostic) : Emitter :=
  { e with diagnostics := e.diagnostics ++ ds.toArray }

variable (e : Emitter) (ds : List Diagnostic)

@[simp] theorem strings_noting : (e.noting ds).strings = e.strings := rfl

@[simp] theorem instructions_noting : (e.noting ds).instructions = e.instructions := rfl

@[simp] theorem parts_noting : (e.noting ds).parts = e.parts := rfl

@[simp] theorem diagnostics_noting :
    (e.noting ds).diagnostics.toList = e.diagnostics.toList ++ ds := by
  simp [noting]

@[simp] theorem noting_nil : e.noting [] = e := by
  simp [noting]

@[simp] theorem noting_noting (ds' : List Diagnostic) :
    (e.noting ds).noting ds' = e.noting (ds ++ ds') := by
  simp [noting, Array.append_assoc]

end Emitter

namespace Emit

variable {α β : Type} {c : Config}

/-! ## Changes that actions do not see -/

/-- An outcome with the emitter changed. -/
def mapEmitter (φ : Emitter → Emitter) (r : EStateM.Result CompileError Emitter α) :
    EStateM.Result CompileError Emitter α :=
  match r with
  | .ok a e => .ok a (φ e)
  | .error err e => .error err (φ e)

/-- An action that does the same behind a change of the emitter as in front of it. -/
def Commutes (φ : Emitter → Emitter) (act : Emit α) : Prop :=
  ∀ e, act.run (φ e) = mapEmitter φ (act.run e)

theorem commutes_pure (φ : Emitter → Emitter) (a : α) : Commutes φ (pure a) := fun _ => rfl

theorem Commutes.bind {φ : Emitter → Emitter} {act : Emit α} {f : α → Emit β}
    (h : Commutes φ act) (hf : ∀ a, Commutes φ (f a)) : Commutes φ (act >>= f) := by
  intro e
  rw [EStateM.run_bind, EStateM.run_bind, h e]
  cases act.run e with
  | ok a e₁ => exact hf a e₁
  | error err e₁ => rfl

theorem commutes_forM {φ : Emitter → Emitter} {f : α → Emit Unit} (hf : ∀ a, Commutes φ (f a))
    (l : List α) : Commutes φ (l.forM f) := by
  induction l with
  | nil => exact commutes_pure φ ()
  | cons a l ih => exact (hf a).bind fun _ => ih

theorem commutes_mapM {φ : Emitter → Emitter} {f : α → Emit β} (hf : ∀ a, Commutes φ (f a))
    (l : List α) : Commutes φ (l.mapM f) := by
  induction l with
  | nil => exact commutes_pure φ []
  | cons a l ih =>
    rw [List.mapM_cons]
    exact (hf a).bind fun b => ih.bind fun bs => commutes_pure φ (b :: bs)

section Recast

variable {f : Array Instr → Array Instr} {g : Array Diagnostic → Array Diagnostic}

theorem commutes_intern (s : String) : Commutes (Emitter.recast f g) (intern s) := by
  intro e
  rw [run_intern, run_intern, Emitter.strings_recast]
  cases e.strings.intern s with
  | ok p => rfl
  | error size => rfl

theorem commutes_pushRef (t : Table) (r : StringRef) :
    Commutes (Emitter.recast f g) (pushRef t r) := fun _ => rfl

theorem commutes_reserve (t : Table) : Commutes (Emitter.recast f g) (reserve c t) := by
  intro e
  rcases Nat.lt_or_ge (e.count t) c.payloadLimit with h | h
  · obtain ⟨index, hi, hr⟩ := run_reserve_of_lt h
    obtain ⟨index', hi', hr'⟩ := run_reserve_of_lt (e := e.recast f g) h
    rw [hr, hr', Fin.ext (hi'.trans hi.symm)]
    rfl
  · rw [run_reserve_of_le h, run_reserve_of_le (e := e.recast f g) h]
    rfl

theorem commutes_reserveParts (size : Nat) :
    Commutes (Emitter.recast f g) (reserveParts size) := by
  intro e
  rw [run_reserveParts, run_reserveParts, Emitter.parts_recast]
  split <;> rfl

/-- Adding an instruction behind a change, where another one may stand for it. -/
theorem run_pushInstr_recast (hsize : ∀ is, (f is).size = is.size) {i i' : Instr}
    (hpush : ∀ is, f (is.push i) = (f is).push i') (e : Emitter) :
    (pushInstr i').run (e.recast f g) =
      mapEmitter (Emitter.recast f g) ((pushInstr i).run e) := by
  have hroom : (e.recast f g).instructions.size = e.instructions.size := hsize _
  rw [run_pushInstr, run_pushInstr, hroom]
  split
  · simp only [mapEmitter, Emitter.recast, hpush]
  · rfl

theorem commutes_entry (hsize : ∀ is, (f is).size = is.size) {t : Table}
    (hpush : ∀ (index : PayloadIndex) is, f (is.push (.entry t index)) =
      (f is).push (.entry t index)) (strings : List String) :
    Commutes (Emitter.recast f g) (entry c t strings) := by
  refine (commutes_reserve t).bind fun index => ?_
  refine Commutes.bind ?_ fun _ => run_pushInstr_recast hsize (hpush index)
  exact commutes_forM (fun s => (commutes_intern s).bind fun r => commutes_pushRef t r) strings

theorem commutes_valueParts (hsize : ∀ is, (f is).size = is.size)
    (hpush : ∀ (index : PayloadIndex) is, f (is.push (.entry .valueParts index)) =
      (f is).push (.entry .valueParts index)) (name : String) (segments : List Segment) :
    Commutes (Emitter.recast f g) (valueParts c name segments) := by
  have hsegment : ∀ s, Commutes (Emitter.recast f g) (segment s) := fun s =>
    (commutes_intern s.text).bind fun value => commutes_pure _ (SegmentRef.mk s.kind value)
  refine (commutes_reserve .valueParts).bind fun index => ?_
  refine (commutes_reserveParts _).bind fun offset => ?_
  refine (commutes_intern name).bind fun nameRef => ?_
  refine (commutes_mapM hsegment segments).bind fun refs => ?_
  refine Commutes.bind (fun _ => rfl) fun _ => ?_
  exact (commutes_pushRef _ _).bind fun _ => run_pushInstr_recast hsize (hpush index)

/-- **Emitting an operation does not look at instructions and reports**, but for how many
instructions there are. -/
theorem commutes_emit (c : Config) {op : Op} (hsize : ∀ is, (f is).size = is.size)
    (hpush : ∀ i : Instr, i.opcode = op.opcode → ∀ is, f (is.push i) = (f is).push i) :
    Commutes (Emitter.recast f g) (emit c op) := by
  cases hrow : op.row? with
  | some p =>
    rw [emit_of_row? c hrow]
    exact commutes_entry hsize (fun index => hpush _ (Op.opcode_of_row? hrow).symm) _
  | none =>
    cases op with
    | tagClose => exact run_pushInstr_recast hsize (hpush _ rfl)
    | selfClosing => exact run_pushInstr_recast hsize (hpush _ rfl)
    | valueParts name segments =>
      exact commutes_valueParts hsize (fun index => hpush _ rfl) name segments
    | _ => cases hrow

end Recast

/-! ## Silent actions -/

/-- An outcome with more reports. -/
def noting (r : EStateM.Result CompileError Emitter α) (ds : List Diagnostic) :
    EStateM.Result CompileError Emitter α :=
  match r with
  | .ok a e => .ok a (e.noting ds)
  | .error err e => .error err (e.noting ds)

/-- An action that makes no reports and does not look at those there are. -/
def Silent (act : Emit α) : Prop :=
  ∀ e ds, act.run (e.noting ds) = noting (act.run e) ds

/-- **Emitting operations in a row is silent.** -/
theorem silent_forM_emit (c : Config) (ops : List Op) : Silent (ops.forM (emit c)) := by
  intro e ds
  have hemit : ∀ op, Commutes (Emitter.recast id (· ++ ds.toArray)) (emit c op) := by
    intro op
    exact commutes_emit c (fun _ => rfl) fun _ _ _ => rfl
  exact commutes_forM hemit ops e

/-! ## Actions in a row -/

section Rows

variable {a b : Emit Unit} {ops ops' : List Op} {ds ds' : List Diagnostic} {e e' : Emitter}
  {err : CompileError}

theorem run_seq_eq_ok :
    (do a; b : Emit Unit).run e = .ok () e' ↔
      ∃ e₁, a.run e = .ok () e₁ ∧ b.run e₁ = .ok () e' := by
  rw [run_bind_eq_ok]
  constructor
  · rintro ⟨_, e₁, h₁, h₂⟩
    exact ⟨e₁, h₁, h₂⟩
  · rintro ⟨e₁, h₁, h₂⟩
    exact ⟨(), e₁, h₁, h₂⟩

theorem run_seq_eq_error :
    (do a; b : Emit Unit).run e = .error err e' ↔ a.run e = .error err e' ∨
      ∃ e₁, a.run e = .ok () e₁ ∧ b.run e₁ = .error err e' := by
  rw [run_bind_eq_error]
  constructor
  · rintro (h | ⟨_, e₁, h₁, h₂⟩)
    · exact .inl h
    · exact .inr ⟨e₁, h₁, h₂⟩
  · rintro (h | ⟨e₁, h₁, h₂⟩)
    · exact .inl h
    · exact .inr ⟨(), e₁, h₁, h₂⟩

theorem forM_emit_append (c : Config) (ops ops' : List Op) :
    (ops ++ ops').forM (emit c) = (do ops.forM (emit c); ops'.forM (emit c)) :=
  List.forM_append

/-- An action that does what emitting the given operations in a row does, and makes the given
reports. If it fails, it has made some of them. -/
structure Performs (c : Config) (act : Emit Unit) (ops : List Op) (ds : List Diagnostic) :
    Prop where
  ok : ∀ {e e' : Emitter}, (ops.forM (emit c)).run e = .ok () e' →
    act.run e = .ok () (e'.noting ds)
  error : ∀ {e e' : Emitter} {err : CompileError}, (ops.forM (emit c)).run e = .error err e' →
    ∃ made, made <+: ds ∧ act.run e = .error err (e'.noting made)

theorem Performs.congr (h : Performs c a ops ds) (ho : ops = ops') (hd : ds = ds') :
    Performs c a ops' ds' :=
  ho ▸ hd ▸ h

theorem performs_pure : Performs c (pure ()) [] [] where
  ok h := by
    cases h
    rw [Emitter.noting_nil]
    rfl
  error h := by cases h

theorem performs_report (d : Diagnostic) : Performs c (report d) [] [d] where
  ok h := by
    cases h
    rfl
  error h := by cases h

theorem performs_emit (op : Op) : Performs c (emit c op) [op] [] where
  ok h := by
    obtain ⟨e₁, h₁, h₂⟩ := run_seq_eq_ok.mp h
    cases h₂
    rwa [Emitter.noting_nil]
  error h := by
    rcases run_seq_eq_error.mp h with h | ⟨_, _, h⟩
    · exact ⟨[], List.prefix_rfl, by rwa [Emitter.noting_nil]⟩
    · cases h

/-- **Actions in a row perform their operations in a row.** -/
theorem Performs.seq (ha : Performs c a ops ds) (hb : Performs c b ops' ds') :
    Performs c (do a; b) (ops ++ ops') (ds ++ ds') where
  ok {e e'} h := by
    rw [forM_emit_append] at h
    obtain ⟨e₁, h₁, h₂⟩ := run_seq_eq_ok.mp h
    -- The second action begins with the reports of the first, which its operations do not see.
    have hnoted : (ops'.forM (emit c)).run (e₁.noting ds) = .ok () (e'.noting ds) := by
      rw [silent_forM_emit c, h₂]
      rfl
    rw [← Emitter.noting_noting]
    exact run_seq_eq_ok.mpr ⟨_, ha.ok h₁, hb.ok hnoted⟩
  error {e e' err} h := by
    rw [forM_emit_append] at h
    rcases run_seq_eq_error.mp h with h | ⟨e₁, h₁, h₂⟩
    · obtain ⟨made, hp, hr⟩ := ha.error h
      exact ⟨made, hp.trans (List.prefix_append _ _), run_seq_eq_error.mpr (.inl hr)⟩
    · have hnoted : (ops'.forM (emit c)).run (e₁.noting ds) = .error err (e'.noting ds) := by
        rw [silent_forM_emit c, h₂]
        rfl
      obtain ⟨made, hp, hr⟩ := hb.error hnoted
      refine ⟨ds ++ made, (List.prefix_append_right_inj ds).mpr hp, ?_⟩
      rw [← Emitter.noting_noting]
      exact run_seq_eq_error.mpr (.inr ⟨_, ha.ok h₁, hr⟩)

/-- A report that is made under a condition, in front of an action. -/
theorem Performs.report_if {p : Prop} [Decidable p] (d : Diagnostic) (hb : Performs c b ops ds) :
    Performs c (if p then (do report d; b) else b) ops ((if p then [d] else []) ++ ds) := by
  by_cases hp : p
  · rw [if_pos hp, if_pos hp]
    exact (performs_report d).seq hb
  · rw [if_neg hp, if_neg hp]
    exact hb

/-- Actions that perform one operation each, one after the other. -/
theorem performs_forM {f : α → Emit Unit} {op : α → Op} {d : α → List Diagnostic}
    (hf : ∀ x, Performs c (f x) [op x] (d x)) (xs : List α) :
    Performs c (xs.forM f) (xs.map op) (xs.flatMap d) := by
  induction xs with
  | nil => exact performs_pure
  | cons x xs ih => exact (hf x).seq ih

end Rows

end Emit

end Stencil
