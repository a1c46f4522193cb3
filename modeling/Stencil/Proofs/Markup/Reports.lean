import Stencil.Proofs.Diagnostic.Filtering
import Stencil.Proofs.Markup.Nesting

/-!
# What parsing reports

Parsing reports five kinds of things. Two of them are errors, and whether an event is reported as
one of these is a matter of the event alone: of whether a comment or a tag is taken for cut off. So
the errors of a document are those of its events, in their order, whatever else is mended.

## Main definitions

* `Event.fault`: the error that an event is reported as
* `errorKinds`: the kinds of the errors among reports
* `Builder.Reported`: what one builder has reported more than another

## Main results

* `Builder.reported_step`, `Builder.reported_foldl_step`: what events report
* `errorKinds_ofEvents`: **the errors of a document are those of its events**
* `rank_of_mem_diagnostics`: the kinds that parsing reports
-/

namespace Stencil.Markup

open Diagnostic (Kind)

/-- The error that an event is reported as, if it is: a comment or a tag that is taken for cut
off. -/
def Event.fault : Event → Option Kind
  | .comment _ _ terminated => if terminated then none else some .unterminatedComment
  | .start s => if s.ending = .missing then some .unterminatedTag else none
  | .stop t => if t.terminated then none else some .unterminatedTag
  | _ => none

/-- The kinds of the errors among reports. -/
def errorKinds (ds : List Diagnostic) : List Kind :=
  (ds.filter (·.isError)).map (·.kind)

theorem errorKinds_append (ds ds' : List Diagnostic) :
    errorKinds (ds ++ ds') = errorKinds ds ++ errorKinds ds' := by
  rw [errorKinds, List.filter_append, List.map_append]
  rfl

theorem errorKinds_reverse (ds : List Diagnostic) :
    errorKinds ds.reverse = (errorKinds ds).reverse := by
  rw [errorKinds, List.filter_reverse, List.map_reverse]
  rfl

namespace Builder

variable {b b' b'' : Builder} {faults faults' : List Kind}

/-- What a builder has reported more than another, latest first: the errors, and whatever else is
of the kinds that parsing reports. -/
def Reported (faults : List Kind) (b b' : Builder) : Prop :=
  ∃ made, b'.reports = made ++ b.reports ∧ errorKinds made = faults ∧
    ∀ d ∈ made, d.kind.rank ≤ Kind.malformedAttribute.rank

theorem reported_refl (b : Builder) : Reported [] b b :=
  ⟨[], rfl, rfl, List.forall_mem_nil _⟩

theorem Reported.trans (h : Reported faults b b') (h' : Reported faults' b' b'') :
    Reported (faults' ++ faults) b b'' := by
  obtain ⟨made, hreports, hfaults, hkinds⟩ := h
  obtain ⟨made', hreports', hfaults', hkinds'⟩ := h'
  refine ⟨made' ++ made, ?_, ?_, ?_⟩
  · rw [hreports', hreports, List.append_assoc]
  · rw [errorKinds_append, hfaults', hfaults]
  · intro d hd
    rcases List.mem_append.mp hd with hd | hd
    · exact hkinds' d hd
    · exact hkinds d hd

/-- A report of one of the kinds that parsing reports. -/
theorem reported_report (b : Builder) {d : Diagnostic} (kind : Kind) (hkind : d.kind = kind)
    (hrank : kind.rank ≤ Kind.malformedAttribute.rank) :
    Reported (errorKinds [d]) b (b.report d) :=
  ⟨[d], rfl, rfl, List.forall_mem_singleton.mpr (hkind ▸ hrank)⟩

/-- The report of what is taken for cut off. -/
theorem reported_report_if (b : Builder) (c : Bool) {kind : Kind} (span : Span)
    (hrank : kind.rank ≤ Kind.unterminatedTag.rank) :
    Reported (if c then none else some kind).toList b
      (if c then b else b.report { kind, span }) := by
  cases c with
  | true => exact reported_refl b
  | false =>
    have hreported := b.reported_report (d := { kind, span }) kind rfl (hrank.trans (by decide))
    have herror : errorKinds [{ kind, span }] = [kind] := by
      rw [errorKinds, List.filter_cons_of_pos (Diagnostic.isError_iff.mpr hrank)]
      rfl
    rwa [herror] at hreported

/-- Adding a node reports nothing. -/
theorem Reported.append (h : Reported faults b b') (node : Node) :
    Reported faults b (b'.append node) := by
  obtain ⟨made, hreports, hmade⟩ := h
  refine ⟨made, ?_, hmade⟩
  rw [← hreports, Builder.append]
  split <;> rfl

/-- What is reported does not hang on the elements that are open. -/
theorem Reported.withStack (h : Reported faults b b') (stack : List Frame) :
    Reported faults b { b' with stack } :=
  h

/-! ## Events -/

theorem reported_popMany (b : Builder) (related : List Diagnostic.Note) (n : Nat) :
    Reported [] b (b.popMany related n) := by
  induction n generalizing b with
  | zero => exact reported_refl b
  | succ n ih =>
    have hpop : Reported [] b (b.popImplicit related) := by
      rw [popImplicit]
      split
      · exact reported_refl b
      · exact Reported.append (reported_report _ .unclosedElement rfl (by decide)) _
    exact hpop.trans (ih _)

theorem reported_strays (b : Builder) (strays : List Token) :
    Reported [] b
      (strays.foldl (fun b t => b.report (.about .malformedAttribute t.span t.text)) b) := by
  induction strays generalizing b with
  | nil => exact reported_refl b
  | cons t strays ih =>
    have ht : Reported [] b (b.report (.about .malformedAttribute t.span t.text)) :=
      b.reported_report .malformedAttribute rfl le_rfl
    exact ht.trans (ih _)

theorem reported_start (b : Builder) (s : StartTag) :
    Reported (Event.start s).fault.toList b (b.start s) := by
  have hstrays := b.reported_strays s.strays
  dsimp only [Builder.start, Event.fault]
  by_cases hmissing : s.ending = .missing
  · rw [if_pos hmissing, if_pos hmissing]
    exact (hstrays.trans (reported_report _ .unterminatedTag rfl (by decide))).append _
  · rw [if_neg hmissing, if_neg hmissing]
    split
    · exact hstrays.append _
    · exact hstrays.withStack _

theorem reported_stop (b : Builder) (t : EndTag) :
    Reported (Event.stop t).fault.toList b (b.stop t) := by
  obtain ⟨n, popped, hpopped, hstop⟩ := stop_cases b t
  -- The elements that it closes on its way are reported, but not as errors.
  have hreported : Reported (Event.stop t).fault.toList b popped := by
    rw [hpopped]
    exact (b.reported_report_if t.terminated t.span (by decide)).trans (reported_popMany _ _ n)
  rcases hstop with hstop | hstop | ⟨f, rest, -, hstop⟩
  · rwa [hstop]
  · rw [hstop]
    exact hreported.trans (reported_report _ .strayCloseTag rfl (by decide))
  · rw [hstop]
    exact (hreported.withStack rest).append _

/-- **What an event reports**: its own error, and no other one. -/
theorem reported_step (b : Builder) (e : Event) : Reported e.fault.toList b (b.step e) := by
  cases e with
  | text s span => exact (reported_refl b).append _
  | comment s span terminated =>
    exact (b.reported_report_if terminated span (by decide)).append _
  | other kind s span => exact (reported_refl b).append _
  | start s => exact b.reported_start s
  | stop t => exact b.reported_stop t

/-- **What events in a row report**, latest first. -/
theorem reported_foldl_step (b : Builder) (events : List Event) :
    Reported (events.filterMap Event.fault).reverse b (events.foldl Builder.step b) := by
  induction events generalizing b with
  | nil => exact reported_refl b
  | cons e events ih =>
    have hreported := (b.reported_step e).trans (ih (b.step e))
    have hfaults : ((e :: events).filterMap Event.fault).reverse =
        (events.filterMap Event.fault).reverse ++ e.fault.toList := by
      rw [List.filterMap_cons]
      cases e.fault <;> simp
    rwa [hfaults]

end Builder

/-! ## Documents -/

theorem reported_ofEvents (events : List Event) :
    ∃ made, (Document.ofEvents events).diagnostics = made.reverse ∧
      errorKinds made = (events.filterMap Event.fault).reverse ∧
      ∀ d ∈ made, d.kind.rank ≤ Kind.malformedAttribute.rank := by
  have hevents := (Builder.reported_foldl_step {} events).trans
    (Builder.reported_popMany _ [] (events.foldl Builder.step {}).stack.length)
  obtain ⟨made, hreports, hfaults, hkinds⟩ := hevents
  refine ⟨made, ?_, hfaults, hkinds⟩
  rw [← List.append_nil made]
  exact congrArg List.reverse hreports

/-- **The errors of a document are those of its events**, in their order. -/
theorem errorKinds_ofEvents (events : List Event) :
    errorKinds (Document.ofEvents events).diagnostics = events.filterMap Event.fault := by
  obtain ⟨made, hdiagnostics, hfaults, -⟩ := reported_ofEvents events
  rw [hdiagnostics, errorKinds_reverse, hfaults, List.reverse_reverse]

/-- The kinds that parsing reports. -/
theorem rank_of_mem_diagnostics {events : List Event} {d : Diagnostic}
    (h : d ∈ (Document.ofEvents events).diagnostics) :
    d.kind.rank ≤ Kind.malformedAttribute.rank := by
  obtain ⟨made, hdiagnostics, -, hkinds⟩ := reported_ofEvents events
  rw [hdiagnostics, List.mem_reverse] at h
  exact hkinds d h

end Stencil.Markup
