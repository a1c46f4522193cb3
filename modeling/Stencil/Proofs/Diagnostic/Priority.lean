import Mathlib.Data.List.Nodup
import Stencil.Proofs.Diagnostic.Filtering

/-!
# What filtering keeps

At every place where a diagnostic begins filtering keeps one: of those of the highest priority there
the first that was reported. The invariant is on what was kept of the diagnostics seen so far: no
two begin at one place, they begin where those begin that were seen, and each one leads its place.
One more diagnostic takes a place that has none, takes it over from one of lower priority, or is
dropped.

The three parts of the invariant and the order of places leave one list only, so that a list that
was filtered is not changed by filtering it again.

## Main definitions

* `Leads`: a diagnostic that is the first of the highest priority at its place
* `Kept`: what is kept of diagnostics, in any order
* `FilteredFrom`: what is kept of diagnostics, in the order of places

## Main results

* `Kept.keep`, `Kept.foldl`: one diagnostic more, and diagnostics in a row
* `Leads.unique`, `FilteredFrom.unique`: there is one way to filter
* `filteredFrom_filtered`: **filtering keeps the diagnostic that leads each place**
-/

namespace Stencil.Diagnostic

/-! ## Priority -/

/-- The rank of a kind is its place in the order of priority. -/
theorem getElem?_all_rank (k : Kind) : Kind.all[k.rank]? = some k := by
  cases k <;> rfl

theorem rank_injective : Function.Injective Kind.rank := by
  intro a b h
  have hsome := getElem?_all_rank a
  rw [h, getElem?_all_rank b] at hsome
  exact (Option.some.inj hsome).symm

theorem suppresses_iff {a b : Kind} : a.suppresses b = true ↔ a.rank < b.rank :=
  decide_eq_true_iff

/-- A diagnostic that leads its place: none that begins there is of a higher priority, and none
that was reported before it is of the same kind. -/
def Leads (ds : List Diagnostic) (d : Diagnostic) : Prop :=
  ∃ before after, ds = before ++ d :: after ∧
    (∀ x ∈ ds, x.span.start = d.span.start → ¬ x.kind.suppresses d.kind) ∧
    ∀ x ∈ before, x.span.start = d.span.start → x.kind ≠ d.kind

variable {ds kept out out' : List Diagnostic} {d e : Diagnostic}

theorem Leads.mem (h : Leads ds d) : d ∈ ds := by
  obtain ⟨before, after, rfl, -⟩ := h
  exact List.mem_append_right before (List.mem_cons_self ..)

/-- The rank of a diagnostic that leads its place is the least there. -/
theorem Leads.highest (h : Leads ds d) (he : e ∈ ds) (hstart : e.span.start = d.span.start) :
    d.kind.rank ≤ e.kind.rank := by
  obtain ⟨-, -, -, hhighest, -⟩ := h
  exact Nat.le_of_not_lt (mt suppresses_iff.mpr (hhighest e he hstart))

/-- **One diagnostic leads a place.** -/
theorem Leads.unique (h : Leads ds d) (h' : Leads ds e) (hstart : d.span.start = e.span.start) :
    d = e := by
  have hkind : d.kind = e.kind := by
    have hle := h.highest h'.mem hstart.symm
    have hle' := h'.highest h.mem hstart
    exact rank_injective (Nat.le_antisymm hle hle')
  obtain ⟨before, after, hds, -, hfirst⟩ := h
  obtain ⟨before', after', hds', -, hfirst'⟩ := h'
  rcases List.append_eq_append_iff.mp (hds.symm.trans hds') with
    ⟨between, rfl, hrest⟩ | ⟨between, rfl, hrest⟩
  · cases between with
    | nil => exact (List.cons.inj hrest).1
    | cons x between =>
      obtain ⟨rfl, -⟩ := List.cons.inj hrest
      exact absurd hkind (hfirst' d (by simp) hstart)
  · cases between with
    | nil => exact (List.cons.inj hrest).1.symm
    | cons x between =>
      obtain ⟨rfl, -⟩ := List.cons.inj hrest
      exact absurd hkind.symm (hfirst e (by simp) hstart.symm)

/-- A diagnostic goes on to lead its place if the next one does not suppress it there. -/
theorem Leads.snoc (h : Leads ds d)
    (he : e.span.start = d.span.start → ¬ e.kind.suppresses d.kind) : Leads (ds ++ [e]) d := by
  obtain ⟨before, after, rfl, hhighest, hfirst⟩ := h
  refine ⟨before, after ++ [e], by simp, ?_, hfirst⟩
  intro x hx hstart
  rcases List.mem_append.mp hx with hx | hx
  · exact hhighest x hx hstart
  · rw [List.mem_singleton.mp hx] at hstart ⊢
    exact he hstart

/-- A diagnostic of a higher priority takes a place over. -/
theorem Leads.takeover (h : Leads ds d) (hstart : d.span.start = e.span.start)
    (he : e.kind.suppresses d.kind) : Leads (ds ++ [e]) e := by
  have hlower : ∀ x ∈ ds, x.span.start = e.span.start → e.kind.rank < x.kind.rank := by
    intro x hx hxe
    exact Nat.lt_of_lt_of_le (suppresses_iff.mp he) (h.highest hx (hxe.trans hstart.symm))
  refine ⟨ds, [], rfl, ?_, ?_⟩
  · intro x hx hxe
    rw [suppresses_iff]
    rcases List.mem_append.mp hx with hx | hx
    · exact Nat.lt_asymm (hlower x hx hxe)
    · rw [List.mem_singleton.mp hx]
      exact Nat.lt_irrefl _
  · intro x hx hxe hkind
    exact Nat.ne_of_lt (hlower x hx hxe) (congrArg Kind.rank hkind.symm)

/-- The first diagnostic at a place leads it. -/
theorem leads_snoc (h : ∀ x ∈ ds, x.span.start ≠ d.span.start) : Leads (ds ++ [d]) d := by
  refine ⟨ds, [], rfl, ?_, fun x hx hstart => absurd hstart (h x hx)⟩
  intro x hx hstart
  rcases List.mem_append.mp hx with hx | hx
  · exact absurd hstart (h x hx)
  · rw [List.mem_singleton.mp hx, suppresses_iff]
    exact Nat.lt_irrefl _

/-! ## What is kept -/

/-- The places where diagnostics begin. -/
def starts (ds : List Diagnostic) : List Nat :=
  ds.map (·.span.start)

theorem mem_starts {o : Nat} : o ∈ starts ds ↔ ∃ d ∈ ds, d.span.start = o :=
  List.mem_map

/-- What is kept of diagnostics: no two that begin at one place, one wherever one begins, and each
of them the one that leads its place. -/
structure Kept (ds kept : List Diagnostic) : Prop where
  apart : (starts kept).Nodup
  mem_starts : ∀ o, o ∈ starts kept ↔ o ∈ starts ds
  leads : ∀ d ∈ kept, Leads ds d

/-- The places of what is kept: a new one stands behind the others. -/
theorem starts_keep (kept : List Diagnostic) (d : Diagnostic) :
    starts (keep kept d) =
      if d.span.start ∈ starts kept then starts kept else starts kept ++ [d.span.start] := by
  induction kept with
  | nil => rfl
  | cons k kept ih =>
    rw [keep]
    by_cases hk : k.span.start = d.span.start
    · rw [if_pos hk, if_pos (mem_starts.mpr ⟨k, List.mem_cons_self .., hk⟩)]
      refine congrArg (· :: starts kept) ?_
      split
      · exact hk.symm
      · rfl
    · rw [if_neg hk]
      show k.span.start :: starts (keep kept d) = _
      rw [ih]
      have hmem : d.span.start ∈ starts (k :: kept) ↔ d.span.start ∈ starts kept :=
        List.mem_cons.trans (or_iff_right (Ne.symm hk))
      simp only [hmem]
      split <;> rfl

/-- What is kept was kept before and is not suppressed, or it is new: then it begins at a new place
or suppresses what was kept there. -/
theorem mem_keep (hapart : (starts kept).Nodup) {x : Diagnostic} (hx : x ∈ keep kept d) :
    (x ∈ kept ∧ (d.span.start = x.span.start → ¬ d.kind.suppresses x.kind)) ∨
      (x = d ∧ ((∀ k ∈ kept, k.span.start ≠ d.span.start) ∨
        ∃ k ∈ kept, k.span.start = d.span.start ∧ d.kind.suppresses k.kind)) := by
  induction kept with
  | nil => exact .inr ⟨List.mem_singleton.mp hx, .inl (List.forall_mem_nil _)⟩
  | cons k kept ih =>
    obtain ⟨hk, hrest⟩ := List.nodup_cons.mp hapart
    rw [keep] at hx
    by_cases hstart : k.span.start = d.span.start
    · rw [if_pos hstart] at hx
      rcases List.mem_cons.mp hx with rfl | hx
      · by_cases hsup : d.kind.suppresses k.kind = true
        · rw [if_pos hsup]
          exact .inr ⟨rfl, .inr ⟨k, List.mem_cons_self .., hstart, hsup⟩⟩
        · rw [if_neg hsup]
          exact .inl ⟨List.mem_cons_self .., fun _ => hsup⟩
      · refine .inl ⟨List.mem_cons_of_mem k hx, fun h => ?_⟩
        exact absurd (mem_starts.mpr ⟨x, hx, (hstart.trans h).symm⟩) hk
    · rw [if_neg hstart] at hx
      rcases List.mem_cons.mp hx with rfl | hx
      · exact .inl ⟨List.mem_cons_self .., fun h => absurd h.symm hstart⟩
      · rcases ih hrest hx with ⟨hx, hsup⟩ | ⟨rfl, hnew | ⟨k', hk', hover⟩⟩
        · exact .inl ⟨List.mem_cons_of_mem k hx, hsup⟩
        · exact .inr ⟨rfl, .inl (List.forall_mem_cons.mpr ⟨hstart, hnew⟩)⟩
        · exact .inr ⟨rfl, .inr ⟨k', List.mem_cons_of_mem k hk', hover⟩⟩

/-- **One diagnostic more.** -/
theorem Kept.keep (h : Kept ds kept) (d : Diagnostic) : Kept (ds ++ [d]) (keep kept d) := by
  have hsnoc : starts (ds ++ [d]) = starts ds ++ [d.span.start] := List.map_append
  refine ⟨?_, ?_, ?_⟩
  · rw [starts_keep]
    split
    · exact h.apart
    · rename_i hnew
      refine List.nodup_append.mpr ⟨h.apart, List.nodup_singleton _, ?_⟩
      intro o ho o' ho' heq
      rw [heq, List.mem_singleton.mp ho'] at ho
      exact hnew ho
  · intro o
    rw [starts_keep, hsnoc, List.mem_append, ← h.mem_starts, List.mem_singleton]
    split
    · rename_i hold
      exact (or_iff_left_of_imp fun ho => ho ▸ hold).symm
    · rw [List.mem_append, List.mem_singleton]
  · intro x hx
    rcases mem_keep h.apart hx with ⟨hx, hsup⟩ | ⟨rfl, hnew | ⟨k, hk, hstart, hsup⟩⟩
    · exact (h.leads x hx).snoc hsup
    · apply leads_snoc
      intro y hy hstart
      have hold := (h.mem_starts _).mpr (Diagnostic.mem_starts.mpr ⟨y, hy, hstart⟩)
      obtain ⟨k, hk, hkx⟩ := Diagnostic.mem_starts.mp hold
      exact hnew k hk hkx
    · exact (h.leads k hk).takeover hstart hsup

theorem kept_nil : Kept [] [] where
  apart := List.nodup_nil
  mem_starts := fun _ => Iff.rfl
  leads := List.forall_mem_nil _

/-- **Diagnostics in a row**, behind those that were seen. -/
theorem Kept.foldl (h : Kept ds kept) (more : List Diagnostic) :
    Kept (ds ++ more) (more.foldl Diagnostic.keep kept) := by
  induction more generalizing ds kept with
  | nil => rwa [List.append_nil]
  | cons d more ih =>
    have hmore := ih (h.keep d)
    rwa [List.append_assoc] at hmore

/-! ## The order of places -/

/-- What is kept of diagnostics, in the order of places: the places where they begin increase, there
is one wherever one of the diagnostics begins, and each one leads its place. -/
structure FilteredFrom (ds out : List Diagnostic) : Prop where
  increasing : out.Pairwise fun a b => a.span.start < b.span.start
  mem_starts : ∀ o, (∃ d ∈ out, d.span.start = o) ↔ ∃ d ∈ ds, d.span.start = o
  leads : ∀ d ∈ out, Leads ds d

theorem FilteredFrom.nodup (h : FilteredFrom ds out) : out.Nodup := by
  refine h.increasing.imp ?_
  rintro a b hlt rfl
  exact Nat.lt_irrefl _ hlt

/-- **There is one way to filter.** -/
theorem FilteredFrom.unique (h : FilteredFrom ds out) (h' : FilteredFrom ds out') : out = out' := by
  have hsubset : ∀ {out out' : List Diagnostic}, FilteredFrom ds out → FilteredFrom ds out' →
      ∀ d ∈ out, d ∈ out' := by
    intro out out' h h' d hd
    have hds := (h.mem_starts d.span.start).mp ⟨d, hd, rfl⟩
    obtain ⟨d', hd', hstart⟩ := (h'.mem_starts d.span.start).mpr hds
    rwa [(h.leads d hd).unique (h'.leads d' hd') hstart.symm]
  have hperm : out.Perm out' := (List.perm_ext_iff_of_nodup h.nodup h'.nodup).mpr fun d =>
    ⟨hsubset h h' d, hsubset h' h d⟩
  refine hperm.eq_of_pairwise ?_ h.increasing h'.increasing
  intro a b _ _ hab hba
  exact absurd hba (Nat.lt_asymm hab)

/-- Where all begin at different places, all are kept. -/
theorem filteredFrom_self (h : out.Pairwise fun a b => a.span.start < b.span.start) :
    FilteredFrom out out := by
  refine ⟨h, fun o => Iff.rfl, ?_⟩
  intro d hd
  obtain ⟨before, after, rfl⟩ := List.append_of_mem hd
  obtain ⟨-, hafter, hbefore⟩ := List.pairwise_append.mp h
  have hfront : ∀ x ∈ before, x.span.start ≠ d.span.start := fun x hx =>
    Nat.ne_of_lt (hbefore x hx d (List.mem_cons_self ..))
  refine ⟨before, after, rfl, ?_, fun x hx hstart => absurd hstart (hfront x hx)⟩
  intro x hx hstart
  rcases List.mem_append.mp hx with hx | hx
  · exact absurd hstart (hfront x hx)
  · rcases List.mem_cons.mp hx with rfl | hx
    · rw [suppresses_iff]
      exact Nat.lt_irrefl _
    · exact absurd hstart.symm (Nat.ne_of_lt (List.rel_of_pairwise_cons hafter hx))

/-- Sorting by places what begins at different places. -/
theorem Kept.filteredFrom_mergeSort (h : Kept ds kept) :
    FilteredFrom ds (kept.mergeSort fun a b => a.span.start ≤ b.span.start) := by
  have hperm := List.mergeSort_perm kept fun a b => decide (a.span.start ≤ b.span.start)
  refine ⟨?_, ?_, ?_⟩
  · have htrans : ∀ a b c : Diagnostic, decide (a.span.start ≤ b.span.start) = true →
        decide (b.span.start ≤ c.span.start) = true →
        decide (a.span.start ≤ c.span.start) = true := by
      intro a b c hab hbc
      rw [decide_eq_true_eq] at hab hbc ⊢
      exact Nat.le_trans hab hbc
    have htotal : ∀ a b : Diagnostic, (decide (a.span.start ≤ b.span.start) ||
        decide (b.span.start ≤ a.span.start)) = true := by
      intro a b
      rw [Bool.or_eq_true, decide_eq_true_eq, decide_eq_true_eq]
      exact Nat.le_total _ _
    have hsorted := List.pairwise_mergeSort htrans htotal kept
    -- No two begin at one place, so that the order is strict.
    have hapart : (kept.mergeSort fun a b => a.span.start ≤ b.span.start).Pairwise
        fun a b => a.span.start ≠ b.span.start :=
      List.pairwise_map.mp ((hperm.map _).nodup_iff.mpr h.apart)
    refine (hsorted.and hapart).imp ?_
    rintro a b ⟨hle, hne⟩
    exact Nat.lt_of_le_of_ne (of_decide_eq_true hle) hne
  · intro o
    rw [← Diagnostic.mem_starts, ← Diagnostic.mem_starts, ← h.mem_starts]
    exact (hperm.map _).mem_iff
  · intro d hd
    exact h.leads d (hperm.mem_iff.mp hd)

theorem filteredFrom (ds : List Diagnostic) : FilteredFrom ds (filtered ds) :=
  (kept_nil.foldl ds).filteredFrom_mergeSort

/-- **Filtering keeps the diagnostic that leads each place.** The places of what is left increase,
they are the places where a diagnostic begins, and at each of them the first diagnostic of the
highest priority is left as it was reported. Filtering again changes nothing. There is an error
exactly if there was one, and nothing is left exactly if nothing was there. -/
theorem filteredFrom_filtered (ds : List Diagnostic) :
    FilteredFrom ds (filtered ds) ∧ filtered (filtered ds) = filtered ds ∧
      hasErrors (filtered ds) = hasErrors ds ∧ (filtered ds = [] ↔ ds = []) := by
  refine ⟨filteredFrom ds, ?_, hasErrors_filtered ds, filtered_eq_nil_iff⟩
  exact (filteredFrom (filtered ds)).unique (filteredFrom_self (filteredFrom ds).increasing)

end Stencil.Diagnostic
