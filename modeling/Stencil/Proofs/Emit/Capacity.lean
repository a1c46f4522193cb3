import Stencil.Proofs.Emit.Reachable

/-!
# How much of a forest is emitted

A table holds so many entries and no more. Emitting a forest goes on as long as every operation
finds room in the table that it uses, and stops in front of the first one that does not. How far it
gets can be told from the counts of the tables and from the operations alone: what is emitted is
the longest front of them for which there is room.

## Main definitions

* `uses`: how many operations of a list use a table
* `Emitter.RoomFor`: there is room for every operation of a list
* `Emitter.Filling`: the longest front of a list for which there is room

## Main results

* `size_of_emit`, `count_of_emit`, `count_of_forM`: what operations add to tables
* `Emitter.Reachable.count_le`: no table has more entries than it may have
* `emitNodes_filling`: **emitting a forest emits the longest front of its operations for which
  there is room**
-/

namespace Stencil

open Stencil.Markup Stencil.Wire

/-- How many operations of a list use a table. -/
def uses (t : Table) (ops : List Op) : Nat :=
  ops.countP fun op => op.opcode = .entry t

section Uses

variable (t : Table)

@[simp] theorem uses_append (ops ops' : List Op) :
    uses t (ops ++ ops') = uses t ops + uses t ops' :=
  List.countP_append

theorem uses_cons (op : Op) (ops : List Op) :
    uses t (op :: ops) = (if op.opcode = .entry t then 1 else 0) + uses t ops := by
  rw [uses, uses, List.countP_cons, Nat.add_comm]
  simp

end Uses

/-! ## What operations add to the counts -/

variable {c : Config} {e e' : Emitter} {op : Op} {ops : List Op}

/-- An operation that is emitted adds the references of one entry to the table that it uses. -/
theorem size_of_emit (h : (emit c op).run e = .ok () e') (t : Table) :
    (e'.tables.get t).size
      = (e.tables.get t).size + if op.opcode = .entry t then t.arity else 0 := by
  cases emit_eq_ok h with
  | closing ends grown =>
    have hno : op.opcode ≠ .entry t := by
      rintro hop
      rcases ends with ⟨rfl, -⟩ | ⟨rfl, -⟩ <;> cases hop
    rw [if_neg hno, grown]
    rfl
  | @row _ u strings index refs row _ _ refers _ grown =>
    have hl : refs.length = u.arity := by
      rw [List.Forall₂.length_eq refers, Op.length_of_row? row]
    rw [grown, Emitter.size_modify_append, hl, Op.opcode_of_row? row]
    by_cases ht : t = u
    · subst ht
      simp
    · simp [ht, Ne.symm ht]
  | @parts name segments index entry _ _ _ _ _ _ grown =>
    rw [grown, PerTable.get_modify, Op.opcode]
    cases t <;> simp [Table.arity]

/-- An operation that is emitted adds an entry to the table that it uses. -/
theorem count_of_emit (h : (emit c op).run e = .ok () e') (t : Table) :
    e'.count t = e.count t + if op.opcode = .entry t then 1 else 0 := by
  rw [Emitter.count, Emitter.count, size_of_emit h]
  split
  · exact Nat.add_div_right _ t.arity_pos
  · rfl

/-- An operation that is emitted found room. -/
theorem lt_of_emit (h : (emit c op).run e = .ok () e') {t : Table} (ht : op.opcode = .entry t) :
    e.count t < c.payloadLimit := by
  cases emit_eq_ok h with
  | closing ends _ => rcases ends with ⟨rfl, -⟩ | ⟨rfl, -⟩ <;> cases ht
  | row row _ room _ _ _ =>
    rw [Op.opcode_of_row? row] at ht
    cases ht
    exact room
  | parts _ room _ _ _ _ _ =>
    cases ht
    exact room

theorem count_of_forM (h : (ops.forM (emit c)).run e = .ok () e') (t : Table) :
    e'.count t = e.count t + uses t ops := by
  induction ops generalizing e with
  | nil =>
    cases h
    rfl
  | cons op ops ih =>
    obtain ⟨e₁, h₁, h₂⟩ := Emit.run_seq_eq_ok.mp h
    rw [ih h₂, count_of_emit h₁, uses_cons, Nat.add_assoc]

/-- An operation that is emitted does not get past the limit of a table. -/
theorem count_le_of_emit {t : Table} (h : e.count t ≤ c.payloadLimit)
    (hr : (emit c op).run e = .ok () e') : e'.count t ≤ c.payloadLimit := by
  rw [count_of_emit hr]
  split
  · rename_i ht
    exact lt_of_emit hr ht
  · exact h

/-- **No table has more entries than it may have.** -/
theorem Emitter.Reachable.count_le (h : e.Reachable c) (t : Table) :
    e.count t ≤ c.payloadLimit := by
  refine h.keeps (P := fun e => e.count t ≤ c.payloadLimit) ?_ (fun _ he => he) ?_
  · cases t <;> exact Nat.zero_le _
  · exact fun he hr => count_le_of_emit he hr

/-! ## The longest front for which there is room -/

namespace Emitter

/-- Every operation of a list that uses a table finds fewer entries in it than it may have, those
of the operations in front of it included. -/
def RoomFor (c : Config) (e : Emitter) (ops : List Op) : Prop :=
  ∀ before op behind t, ops = before ++ op :: behind → op.opcode = .entry t →
    e.count t + uses t before < c.payloadLimit

/-- The longest front of a list for which there is room. -/
structure Filling (c : Config) (e : Emitter) (ops pre : List Op) : Prop where
  isPrefix : pre <+: ops
  room : e.RoomFor c pre
  longest : ∀ longer, longer <+: ops → e.RoomFor c longer → longer <+: pre

/-- There was room for operations that were emitted. -/
theorem roomFor_of_forM (h : (ops.forM (emit c)).run e = .ok () e') : e.RoomFor c ops := by
  rintro before op behind t rfl ht
  rw [Emit.forM_emit_append] at h
  obtain ⟨e₁, h₁, h₂⟩ := Emit.run_seq_eq_ok.mp h
  obtain ⟨e₂, hop, -⟩ := Emit.run_seq_eq_ok.mp h₂
  rw [← count_of_forM h₁]
  exact lt_of_emit hop ht

/-- A list for which there is room is its own longest front. -/
theorem filling_self (h : e.RoomFor c ops) : e.Filling c ops ops where
  isPrefix := List.prefix_rfl
  room := h
  longest _ hp _ := hp

/-- A front is the longest one if there is no room for what comes next. -/
theorem filling_of_full {pre post : List Op} {t : Table} (h : e.RoomFor c pre)
    (ht : op.opcode = .entry t) (hfull : c.payloadLimit ≤ e.count t + uses t pre) :
    e.Filling c (pre ++ op :: post) pre where
  isPrefix := List.prefix_append _ _
  room := h
  longest longer hp hroom := by
    rcases Nat.lt_or_ge pre.length longer.length with hlt | hge
    · -- A longer front would hold the operation for which there is no room.
      exfalso
      have hpre : pre ++ [op] <+: longer := by
        refine List.prefix_of_prefix_length_le ?_ hp (by rw [List.length_append]; exact hlt)
        exact ⟨post, by simp⟩
      obtain ⟨behind, rfl⟩ := hpre
      have := hroom pre op behind t (by simp) ht
      omega
    · exact List.prefix_of_prefix_length_le hp (List.prefix_append _ _) hge

end Emitter

/-! ## Forests -/

section Forests

variable {nodes : List Node}

/-- What emitting a forest comes to, if no section runs out of 32 bits: all of its operations, or
those in front of the one that finds its table full. -/
theorem emitNodes_cases (hlimit : Emit.overflows (emitNodes c nodes) e = false) :
    (∃ e' ds, ((denoteAll c nodes).forM (emit c)).run e = .ok () e' ∧
      (emitNodes c nodes).run e = .ok () (e'.noting ds)) ∨
    ∃ pre op post t err e' ds, denoteAll c nodes = pre ++ op :: post ∧
      (pre.forM (emit c)).run e = .ok () e' ∧ op.opcode = .entry t ∧
      c.payloadLimit ≤ e'.count t ∧ err = .tableFull (.entry t) (e'.count t + 1) c.payloadLimit ∧
      (emit c op).run e' = .error err e' ∧
      (emitNodes c nodes).run e = .error err (e'.noting ds) := by
  have hperforms := performs_emitNodes c nodes
  cases h : ((denoteAll c nodes).forM (emit c)).run e with
  | ok _ e' => exact .inl ⟨e', _, rfl, hperforms.ok h⟩
  | error err e' =>
    obtain ⟨made, -, hr⟩ := hperforms.error h
    rw [Emit.overflows_of_error hr] at hlimit
    obtain ⟨pre, op, post, hops, hpre, hop⟩ := Emit.run_forM_eq_error h hlimit
    rcases emit_eq_error hop with ⟨-, t, ht, hle, herr⟩ | htrue
    · exact .inr ⟨pre, op, post, t, err, e', made, hops, hpre, ht, hle, herr, hop, hr⟩
    · rw [htrue] at hlimit
      cases hlimit

/-- Emitting a forest emits the longest front of its operations for which there is room, and
succeeds if that is all of them. -/
theorem exists_filling_of_emitNodes (he : e.Reachable c)
    (hlimit : Emit.overflows (emitNodes c nodes) e = false) :
    ∃ pre e', e.Filling c (denoteAll c nodes) pre ∧ (pre.forM (emit c)).run e = .ok () e' ∧
      (pre = denoteAll c nodes → ∃ ds, (emitNodes c nodes).run e = .ok () (e'.noting ds)) ∧
      ∀ op post, denoteAll c nodes = pre ++ op :: post →
        (emit c op).run e'
            = .error (.tableFull op.opcode (c.payloadLimit + 1) c.payloadLimit) e' ∧
          ∃ ds, (emitNodes c nodes).run e
            = .error (.tableFull op.opcode (c.payloadLimit + 1) c.payloadLimit) (e'.noting ds) := by
  rcases emitNodes_cases hlimit with ⟨e', ds, hops, hr⟩ |
    ⟨pre, op, post, t, err, e', ds, hops, hpre, ht, hle, rfl, hop, hr⟩
  · refine ⟨_, e', Emitter.filling_self (Emitter.roomFor_of_forM hops), hops, fun _ => ⟨ds, hr⟩, ?_⟩
    intro op post h
    exact absurd h (by simp)
  · have hfull : c.payloadLimit ≤ e.count t + uses t pre := by
      rwa [count_of_forM hpre] at hle
    -- The table is full and not more than full, since no operation got past the limit.
    have hcount : e'.count t = c.payloadLimit := by
      refine Nat.le_antisymm ?_ hle
      refine Emit.keeps_forM (P := fun e => e.count t ≤ c.payloadLimit) ?_ (he.count_le t) hpre
      exact fun h hr => count_le_of_emit h hr
    rw [hcount, ← ht] at hop hr
    refine ⟨pre, e', ?_, hpre, ?_, ?_⟩
    · rw [hops]
      exact Emitter.filling_of_full (Emitter.roomFor_of_forM hpre) ht hfull
    · intro h
      rw [← h] at hops
      exact absurd hops (by simp)
    · intro op' post' h
      rw [hops] at h
      obtain ⟨rfl, rfl⟩ := List.cons.inj (List.append_cancel_left h)
      exact ⟨hop, ds, hr⟩

/-- A forest is refused exactly if one of its tables would need more entries than it may have. -/
theorem exists_compile_eq_error_iff
    (hlimit : Emit.overflows (emitNodes c nodes) {} = false) :
    (∃ err, compile c nodes = .error err) ↔
      ∃ t, c.payloadLimit < uses t (denoteAll c nodes) := by
  have hzero : ∀ t, ({} : Emitter).count t = 0 := fun t => by cases t <;> rfl
  rcases emitNodes_cases hlimit with ⟨e', ds, hops, hr⟩ |
    ⟨pre, op, post, t, err, e', ds, hops, hpre, ht, hle, -, -, hr⟩
  · have hcompile : compile c nodes = .ok (e'.noting ds).compiled := by
      rw [compile, hr]
    constructor
    · rintro ⟨err, herr⟩
      rw [hcompile] at herr
      cases herr
    · rintro ⟨t, ht⟩
      have hcount := count_of_forM hops t
      have hbound : e'.count t ≤ c.payloadLimit := by
        refine Emit.keeps_forM (P := fun e => e.count t ≤ c.payloadLimit) ?_ ?_ hops
        · exact fun h hr => count_le_of_emit h hr
        · rw [hzero]
          exact Nat.zero_le _
      rw [hzero] at hcount
      omega
  · have hcompile : compile c nodes = .error err := by
      rw [compile, hr]
    refine iff_of_true ⟨err, hcompile⟩ ⟨t, ?_⟩
    rw [count_of_forM hpre, hzero] at hle
    rw [hops, uses_append, uses_cons, if_pos ht]
    omega

end Forests

/-- **Emitting a forest emits the longest front of its operations for which there is room.** The
limit of a table is the configured one, at most the ceiling. From any emitter that calls lead to,
emitting a forest emits that front, and succeeds if it is all; otherwise it fails with the opcode of
the operation that comes next, which has changed nothing. So a forest is refused exactly if a table
would need more entries than it may have. An index for which there is room has 24 bits. -/
theorem emitNodes_filling (c : Config) :
    c.payloadLimit = min c.maxEntries 16777215 ∧
    (∀ e, e.Reachable c → ∀ nodes, Emit.overflows (emitNodes c nodes) e = false →
      ∃ pre e', e.Filling c (denoteAll c nodes) pre ∧ (pre.forM (emit c)).run e = .ok () e' ∧
        (pre = denoteAll c nodes → ∃ ds, (emitNodes c nodes).run e = .ok () (e'.noting ds)) ∧
        ∀ op post, denoteAll c nodes = pre ++ op :: post →
          (emit c op).run e'
              = .error (.tableFull op.opcode (c.payloadLimit + 1) c.payloadLimit) e' ∧
            ∃ ds, (emitNodes c nodes).run e
              = .error (.tableFull op.opcode (c.payloadLimit + 1) c.payloadLimit)
                (e'.noting ds)) ∧
    (∀ nodes, Emit.overflows (emitNodes c nodes) {} = false →
      ((∃ err, compile c nodes = .error err) ↔
        ∃ t, c.payloadLimit < uses t (denoteAll c nodes))) ∧
    ∀ (e : Emitter) (t : Table), e.count t < c.payloadLimit →
      ∃ index : PayloadIndex, index.val = e.count t ∧ (Emit.reserve c t).run e = .ok index e := by
  refine ⟨rfl, ?_, ?_, ?_⟩
  · intro e he nodes hlimit
    exact exists_filling_of_emitNodes he hlimit
  · intro nodes hlimit
    exact exists_compile_eq_error_iff hlimit
  · intro e t h
    exact Emit.run_reserve_of_lt h

/-- A table of one entry, after a call that found it full: the text is emitted and the second tag
is not. -/
theorem emitNodes_filling_second_tag :
    ∃ pre e', (Emit.after (emit { maxEntries := 1 } (.tagOpen "b"))
        (Emit.after (emit { maxEntries := 1 } (.tagOpen "a")) {})).Filling { maxEntries := 1 }
          [.text "hi", .tagOpen "br", .selfClosing] pre ∧
      (pre.forM (emit { maxEntries := 1 })).run
        (Emit.after (emit { maxEntries := 1 } (.tagOpen "b"))
          (Emit.after (emit { maxEntries := 1 } (.tagOpen "a")) {})) = .ok () e' ∧
      ∀ op post, [.text "hi", .tagOpen "br", .selfClosing] = pre ++ op :: post →
        (emit { maxEntries := 1 } op).run e' = .error (.tableFull op.opcode 2 1) e' := by
  have hreach : (Emit.after (emit { maxEntries := 1 } (.tagOpen "b"))
      (Emit.after (emit { maxEntries := 1 } (.tagOpen "a")) {})).Reachable { maxEntries := 1 } :=
    (Emitter.Reachable.fresh.emit (.tagOpen "a") (by decide +kernel)).emit (.tagOpen "b")
      (by decide +kernel)
  obtain ⟨pre, e', hfilling, hpre, -, hnext⟩ := (emitNodes_filling { maxEntries := 1 }).2.1 _ hreach
    [.text "hi" {}, .element { name := "br" } []] (by decide +kernel)
  have hdenote : denoteAll { maxEntries := 1 } [.text "hi" {}, .element { name := "br" } []]
      = [.text "hi", .tagOpen "br", .selfClosing] := by
    decide +kernel
  rw [hdenote] at hfilling hnext
  exact ⟨pre, e', hfilling, hpre, fun op post h => (hnext op post h).1⟩

end Stencil
