import Stencil.Diagnostic.Filtered

/-!
# Filtering hides no error

Of several diagnostics at one place filtering keeps one. Errors have the highest priorities, so that
a place with an error among its diagnostics keeps an error. So there is an error behind a filter
exactly if there was one in front of it, and nothing is left exactly if nothing was there.

## Main results

* `isError_kept`: of two diagnostics at one place an error stays if one of them is one
* `any_isError_keep`, `any_isError_foldl_keep`: what is kept has an error if one was added
* `hasErrors_filtered`: **filtering hides no error and makes none**
* `filtered_eq_nil_iff`: **filtering leaves nothing only of nothing**
-/

namespace Stencil.Diagnostic

/-- The errors are the kinds of the two highest priorities. -/
theorem isError_iff {d : Diagnostic} : d.isError = true ↔ d.kind.rank ≤ 1 := by
  rw [isError, severity]
  cases d.kind <;> decide

/-- Of two diagnostics at one place an error stays exactly if one of them is one. -/
theorem isError_kept (k d : Diagnostic) :
    (if d.kind.suppresses k.kind then d else k).isError = (k.isError || d.isError) := by
  rw [Bool.eq_iff_iff, Bool.or_eq_true, isError_iff, isError_iff, isError_iff]
  by_cases h : d.kind.suppresses k.kind = true
  · rw [if_pos h]
    rw [Kind.suppresses, decide_eq_true_eq] at h
    omega
  · rw [if_neg h]
    rw [Kind.suppresses, decide_eq_true_eq] at h
    omega

/-- **One diagnostic more**: what is kept has an error if it had one or the new one is one. -/
theorem any_isError_keep (kept : List Diagnostic) (d : Diagnostic) :
    (keep kept d).any isError = (kept.any isError || d.isError) := by
  induction kept with
  | nil => simp [keep]
  | cons k kept ih =>
    rw [keep]
    split
    · rw [List.any_cons, List.any_cons, isError_kept, Bool.or_right_comm]
    · rw [List.any_cons, List.any_cons, ih, Bool.or_assoc]

/-- **Diagnostics in a row**: what is kept has an error if it had one or one of them is one. -/
theorem any_isError_foldl_keep (kept ds : List Diagnostic) :
    (ds.foldl keep kept).any isError = (kept.any isError || ds.any isError) := by
  induction ds generalizing kept with
  | nil => simp
  | cons d ds ih => rw [List.foldl_cons, ih, any_isError_keep, List.any_cons, Bool.or_assoc]

/-- **Filtering hides no error and makes none.** -/
theorem hasErrors_filtered (ds : List Diagnostic) : hasErrors (filtered ds) = hasErrors ds := by
  rw [hasErrors, filtered, (List.mergeSort_perm _ _).any_eq, any_isError_foldl_keep]
  rfl

theorem keep_ne_nil (kept : List Diagnostic) (d : Diagnostic) : keep kept d ≠ [] := by
  cases kept with
  | nil => exact List.cons_ne_nil d []
  | cons k kept =>
    rw [keep]
    split <;> exact List.cons_ne_nil _ _

theorem foldl_keep_eq_nil_iff {kept ds : List Diagnostic} :
    ds.foldl keep kept = [] ↔ kept = [] ∧ ds = [] := by
  induction ds generalizing kept with
  | nil => simp
  | cons d ds ih => simp [ih, keep_ne_nil]

/-- **Filtering leaves nothing only of nothing.** -/
theorem filtered_eq_nil_iff {ds : List Diagnostic} : filtered ds = [] ↔ ds = [] := by
  rw [filtered, ← List.length_eq_zero_iff, (List.mergeSort_perm _ _).length_eq,
    List.length_eq_zero_iff, foldl_keep_eq_nil_iff]
  simp

/-- No error is counted exactly if there is none. -/
theorem errorCount_eq_zero_iff {ds : List Diagnostic} :
    errorCount ds = 0 ↔ hasErrors ds = false := by
  rw [errorCount, hasErrors, List.countP_eq_zero, List.any_eq_false]

end Stencil.Diagnostic
