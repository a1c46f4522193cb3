import Mathlib.Data.List.Basic
import Stencil.Wire.Error

/-!
# Outcomes of reading

A reader of an image succeeds or fails with an error. Its outcome is judged by two conditions on
what it reads: one that holds exactly if it succeeds, and one that says of each error whether it is
the one. Judgements compose along the readers: of two in a row the second one counts if the first
one succeeds, and of a list the first member that is not good is to blame.

## Main definitions

* `Judged`: when an outcome is a success, and when it is which failure
* `FirstFault`: the fault of the first member of a list that is not good

## Main results

* `Judged.bind`: two readers in a row
* `Judged.mapM`: a reader of the members of a list
-/

namespace Stencil.Wire

/-- The outcome of a reader: it succeeds exactly if `good` holds, and fails exactly with the
errors of which `fault` holds. -/
structure Judged {β : Type} (x : Except ImageError β) (good : Prop) (fault : ImageError → Prop) :
    Prop where
  ok : (∃ b, x = .ok b) ↔ good
  error : ∀ err, x = .error err ↔ fault err

/-- The fault of the first member of a list that is not good. -/
def FirstFault {α : Type} (good : α → Prop) (fault : α → ImageError → Prop) (l : List α)
    (err : ImageError) : Prop :=
  ∃ pre x post, l = pre ++ x :: post ∧ (∀ y ∈ pre, good y) ∧ fault x err

section Outcomes

variable {α β γ : Type} {x : Except ImageError β} {good good' : Prop}
  {fault fault' : ImageError → Prop}

theorem Judged.congr (h : Judged x good fault) (hg : good ↔ good')
    (hf : ∀ err, fault err ↔ fault' err) : Judged x good' fault' where
  ok := h.ok.trans hg
  error err := (h.error err).trans (hf err)

theorem judged_ok (b : β) : Judged (.ok b) True fun _ => False where
  ok := by simp
  error := by simp

theorem judged_error (e : ImageError) :
    Judged (.error e : Except ImageError β) False fun err => err = e where
  ok := by simp
  error err := by simp [eq_comm]

/-- What is at fault is not good. -/
theorem Judged.not_good (h : Judged x good fault) {err : ImageError} (hf : fault err) :
    ¬ good := by
  intro hg
  obtain ⟨b, hb⟩ := h.ok.mpr hg
  rw [(h.error err).mpr hf] at hb
  cases hb

theorem Judged.map (h : Judged x good fault) (f : β → γ) : Judged (x.map f) good fault := by
  cases x with
  | error e => exact ⟨by simpa [Except.map] using h.ok, by simpa [Except.map] using h.error⟩
  | ok b => exact ⟨by simpa [Except.map] using h.ok, by simpa [Except.map] using h.error⟩

/-- Two readers in a row: the second one counts if the first one succeeds. -/
theorem Judged.bind {f : β → Except ImageError γ} (hx : Judged x good fault)
    (hf : ∀ b, x = .ok b → Judged (f b) good' fault') :
    Judged (x >>= f) (good ∧ good') fun err => fault err ∨ good ∧ fault' err := by
  cases x with
  | error e =>
    have hgood : ¬ good := fun h => by simpa using hx.ok.mpr h
    refine ⟨by simp [bind, Except.bind, hgood], fun err => ?_⟩
    simp [bind, Except.bind, hgood, ← hx.error err]
  | ok b =>
    have hgood : good := hx.ok.mp ⟨b, rfl⟩
    have hfault : ∀ err, ¬ fault err := fun err h => by simpa using (hx.error err).mpr h
    refine (hf b rfl).congr (by simp [hgood]) fun err => ?_
    simp [hgood, hfault]

variable {P : α → Prop} {F : α → ImageError → Prop}

theorem firstFault_nil (err : ImageError) : ¬ FirstFault P F [] err := by
  rintro ⟨pre, x, post, h, -, -⟩
  simp at h

theorem firstFault_cons {y : α} {l : List α} {err : ImageError} :
    FirstFault P F (y :: l) err ↔ F y err ∨ P y ∧ FirstFault P F l err := by
  constructor
  · rintro ⟨pre, x, post, h, hpre, hx⟩
    cases pre with
    | nil =>
      obtain ⟨rfl, rfl⟩ := List.cons.inj h
      exact .inl hx
    | cons z pre =>
      obtain ⟨rfl, rfl⟩ := List.cons.inj h
      exact .inr ⟨hpre _ (by simp), pre, x, post, rfl,
        fun w hw => hpre w (List.mem_cons_of_mem _ hw), hx⟩
  · rintro (hy | ⟨hy, pre, x, post, rfl, hpre, hx⟩)
    · exact ⟨[], y, l, rfl, by simp, hy⟩
    · exact ⟨y :: pre, x, post, rfl, by simpa using ⟨hy, hpre⟩, hx⟩

theorem firstFault_singleton {y : α} {err : ImageError} :
    FirstFault P F [y] err ↔ F y err := by
  rw [firstFault_cons]
  simp [firstFault_nil]

theorem firstFault_map {f : β → α} {l : List β} {err : ImageError} :
    FirstFault P F (l.map f) err ↔
      FirstFault (fun b => P (f b)) (fun b => F (f b)) l err := by
  induction l with
  | nil => simp [firstFault_nil]
  | cons b l ih => rw [List.map_cons, firstFault_cons, firstFault_cons, ih]

/-- Reading the members of a list one by one. -/
theorem Judged.mapM {f : α → Except ImageError β} (h : ∀ x, Judged (f x) (P x) (F x))
    (l : List α) : Judged (l.mapM f) (∀ x ∈ l, P x) (FirstFault P F l) := by
  induction l with
  | nil => exact (judged_ok []).congr (by simp) fun err => by simp [firstFault_nil]
  | cons x l ih =>
    rw [List.mapM_cons]
    have hrest := fun b => ih.bind fun bs _ => judged_ok (b :: bs)
    refine ((h x).bind fun b _ => hrest b).congr (by simp) fun err => ?_
    simp [firstFault_cons]

end Outcomes

end Stencil.Wire
