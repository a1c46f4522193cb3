import Stencil.Proofs.Emit.Capacity

/-!
# Emitters whose parts agree

Instructions, tables, strings and the block of value parts grow side by side, and each refers to
another: an instruction to the entry of a table, an entry to strings or to a stretch of the block,
and the block to strings again. They agree if the instructions of a table name its entries one by
one, all references to strings are those that the interner has given out, and the references to the
block cover it without a gap. Every operation keeps this, since it adds to all of them at once and
takes nothing away. So it holds of every emitter that calls lead to, also after calls that failed.

## Main definitions

* `Interner.Knows`: a reference that an interner has given out
* `Tiles`: references that cover a stretch of the block, one behind the other
* `Emitter.indices`: the indices that the instructions of a table carry
* `Emitter.Consistent`: instructions, tables, strings and block agree

## Main results

* `Emitter.Consistent.emit`: every operation keeps the parts in agreement
* `Emitter.Reachable.consistent`: **the parts of an emitter that calls lead to agree**
-/

namespace Stencil

open Stencil.Markup Stencil.Text Stencil.Wire

/-! ## References that were given out -/

namespace Wire.Interner

/-- A reference that was given out for a string. It lies within the bytes of the strings and is
resolved to its string. -/
def Knows (i : Interner) (r : StringRef) : Prop :=
  ∃ s ∈ i.strings, i.get? s = some r ∧ r.stop ≤ i.bytes.length ∧ i.resolve? r = some s

variable {i j : Interner} {r : StringRef}

theorem knows_of_get? {s : String} (h : i.get? s = some r) : i.Knows r := by
  have hslice := slice?_of_get? h
  refine ⟨s, mem_strings_of_get? h, h, StringRef.stop_le_of_slice? hslice, ?_⟩
  rw [resolve?, hslice, Option.bind_some, Utf8.decode?_encode]

/-- A reference that was given out stays good when strings are added. -/
theorem Knows.mono (hp : i.strings <+: j.strings) (h : i.Knows r) : j.Knows r := by
  obtain ⟨s, -, hs, -, -⟩ := h
  exact knows_of_get? (get?_of_isPrefix hp hs)

end Wire.Interner

/-! ## References that cover a block -/

/-- References that cover a block from `start` to `stop`, one behind the other, each as long as its
entry is. -/
inductive Tiles : Nat → List StringRef → List PartsEntry → Nat → Prop
  | nil (stop : Nat) : Tiles stop [] [] stop
  | cons {start stop : Nat} {r : StringRef} {refs : List StringRef} {entry : PartsEntry}
      {entries : List PartsEntry} (begins : r.offset.toNat = start)
      (size : r.length.toNat = 12 + 12 * entry.segments.length)
      (rest : Tiles r.stop refs entries stop) : Tiles start (r :: refs) (entry :: entries) stop

/-- A reference that begins where others end covers the block further on. -/
theorem Tiles.snoc {start stop : Nat} {refs : List StringRef} {entries : List PartsEntry}
    {r : StringRef} {entry : PartsEntry} (h : Tiles start refs entries stop)
    (begins : r.offset.toNat = stop) (size : r.length.toNat = 12 + 12 * entry.segments.length) :
    Tiles start (refs ++ [r]) (entries ++ [entry]) r.stop := by
  induction h with
  | nil stop => exact .cons begins size (.nil _)
  | cons begins' size' _ ih => exact .cons begins' size' (ih begins)

/-! ## What the parts agree on -/

/-- No operation that is stored as a plain entry uses the block of value parts. -/
theorem Op.table_ne_of_row? {op : Op} {t : Table} {strings : List String}
    (h : op.row? = some (t, strings)) : t ≠ .valueParts := by
  rintro rfl
  cases op <;> cases h

namespace Emitter

/-- The indices that the instructions with the opcode of a table carry, in their order. -/
def indices (e : Emitter) (t : Table) : List (Option Nat) :=
  (e.instructions.toList.filter (·.opcode = .entry t)).map fun instr => instr.payload?.map Fin.val

/-- Instructions, tables, strings and the block of value parts agree. -/
structure Consistent (e : Emitter) : Prop where
  /-- The instructions of a table name all of its entries, each once and in order. -/
  indices : ∀ t, e.indices t = (List.range (e.count t)).map some
  /-- A table holds whole entries. -/
  whole : ∀ t, (e.tables.get t).size = e.count t * t.arity
  /-- The entries of all tables but one are strings that are interned. -/
  refs : ∀ t ≠ .valueParts, ∀ r ∈ (e.tables.get t).toList, e.strings.Knows r
  /-- The references of the other cover the block, whose entries hold strings that are interned. -/
  parts : ∃ entries : List PartsEntry, e.parts.toList = entries.flatMap PartsEntry.bytes ∧
    Tiles 0 (e.tables.get .valueParts).toList entries e.parts.size ∧
    ∀ entry ∈ entries, e.strings.Knows entry.name ∧
      ∀ segment ∈ entry.segments, e.strings.Knows segment.value

theorem consistent_empty : ({} : Emitter).Consistent where
  indices t := by cases t <;> rfl
  whole t := by cases t <;> rfl
  refs t _ r hr := by cases t <;> cases hr
  parts := ⟨[], rfl, .nil 0, by simp⟩

theorem Consistent.noting {e : Emitter} (h : e.Consistent) (ds : List Diagnostic) :
    (e.noting ds).Consistent :=
  ⟨h.indices, h.whole, h.refs, h.parts⟩

/-! ## One operation -/

theorem Refers.knows {e : Emitter} {refs : List StringRef} {strings : List String}
    (h : e.Refers refs strings) : ∀ r ∈ refs, e.strings.Knows r :=
  ((List.forall₂_and_left _ _).mp (h.imp fun _ _ hr => ⟨Interner.knows_of_get? hr, hr⟩)).1

theorem RefersSegments.knows {e : Emitter} {refs : List SegmentRef} {segments : List Segment}
    (h : e.RefersSegments refs segments) : ∀ segment ∈ refs, e.strings.Knows segment.value :=
  ((List.forall₂_and_left _ _).mp (h.imp fun _ _ hr => ⟨Interner.knows_of_get? hr.2, hr⟩)).1

section Emit

variable {c : Config} {e e' : Emitter} {op : Op}

/-- Strings are only added. -/
theorem Emitted.strings_isPrefix (h : e.Emitted c e' op) :
    e.strings.strings <+: e'.strings.strings := by
  cases h with
  | closing _ grown =>
    have hs : e'.strings = e.strings := by rw [grown]
    exact hs ▸ List.prefix_rfl
  | row _ _ _ _ interned _ => exact interned
  | parts _ _ _ _ _ interned _ => exact interned

/-- One instruction is added, which has the opcode of the operation and the index behind the last
one of its table. -/
theorem Emitted.exists_push (h : e.Emitted c e' op) :
    ∃ instr, e'.instructions = e.instructions.push instr ∧ instr.opcode = op.opcode ∧
      ∀ t, op.opcode = .entry t → instr.payload?.map Fin.val = some (e.count t) := by
  cases h with
  | @closing _ instr ends grown =>
    refine ⟨instr, by rw [grown], ?_, ?_⟩
    · rcases ends with ⟨rfl, rfl⟩ | ⟨rfl, rfl⟩ <;> rfl
    · intro t ht
      rcases ends with ⟨rfl, -⟩ | ⟨rfl, -⟩ <;> cases ht
  | @row _ u _ index _ row index_eq _ _ _ grown =>
    have hop := Op.opcode_of_row? row
    refine ⟨.entry u index, by rw [grown], hop.symm, ?_⟩
    intro t ht
    rw [hop] at ht
    cases ht
    exact congrArg some index_eq
  | @parts _ _ index _ index_eq _ _ _ _ _ grown =>
    refine ⟨.entry .valueParts index, by rw [grown], rfl, ?_⟩
    intro t ht
    cases ht
    exact congrArg some index_eq

/-- The indices of a table go on where they ended. -/
theorem indices_of_emit (h : (Stencil.emit c op).run e = .ok () e') (t : Table) :
    e'.indices t = e.indices t ++ if op.opcode = .entry t then [some (e.count t)] else [] := by
  obtain ⟨instr, hpush, hopcode, hindex⟩ := (emit_eq_ok h).exists_push
  rw [indices, indices, hpush, Array.toList_push, List.filter_append, List.map_append]
  congr 1
  split
  · rename_i ht
    rw [List.filter_cons_of_pos (by rw [hopcode, ht]; simp), List.filter_nil, List.map_singleton,
      hindex t ht]
  · rename_i ht
    rw [List.filter_cons_of_neg (by rw [hopcode]; simpa using ht)]
    rfl

/-- A reference of a table of strings was there, or was given out for a string of the operation. -/
theorem Emitted.mem_or_knows (h : e.Emitted c e' op) {t : Table} (ht : t ≠ .valueParts)
    {r : StringRef} (hr : r ∈ (e'.tables.get t).toList) :
    r ∈ (e.tables.get t).toList ∨ e'.strings.Knows r := by
  cases h with
  | closing _ grown =>
    rw [grown] at hr
    exact .inl hr
  | @row _ u strings _ refs _ _ _ refers _ grown =>
    have htables : e'.tables = e.tables.modify u (· ++ refs.toArray) := by rw [grown]
    rw [htables, PerTable.get_modify] at hr
    split at hr
    · rename_i htu
      rw [Array.toList_append, List.mem_append] at hr
      rcases hr with hr | hr
      · rw [htu]
        exact .inl hr
      · exact .inr (refers.knows r hr)
    · exact .inl hr
  | parts _ _ _ _ _ _ grown =>
    rw [grown, PerTable.get_modify, if_neg ht] at hr
    exact .inl hr

/-- The block and the references to it grow together, or both stay. -/
theorem Consistent.parts_of_emitted (he : e.Consistent) (h : e.Emitted c e' op) :
    ∃ entries : List PartsEntry, e'.parts.toList = entries.flatMap PartsEntry.bytes ∧
      Tiles 0 (e'.tables.get .valueParts).toList entries e'.parts.size ∧
      ∀ entry ∈ entries, e'.strings.Knows entry.name ∧
        ∀ segment ∈ entry.segments, e'.strings.Knows segment.value := by
  obtain ⟨entries, hblock, htiles, hknown⟩ := he.parts
  -- The references in the entries that are there stay good while strings are added.
  have hknown' : ∀ entry ∈ entries, e'.strings.Knows entry.name ∧
      ∀ segment ∈ entry.segments, e'.strings.Knows segment.value := by
    intro entry hentry
    obtain ⟨hname, hsegments⟩ := hknown entry hentry
    exact ⟨hname.mono h.strings_isPrefix, fun s hs => (hsegments s hs).mono h.strings_isPrefix⟩
  cases h with
  | closing _ grown => exact ⟨entries, by rw [grown, hblock], by rwa [grown], hknown'⟩
  | @row _ t _ _ refs row _ _ _ _ grown =>
    have ht : Table.valueParts ≠ t := (Op.table_ne_of_row? row).symm
    refine ⟨entries, by rw [grown, hblock], ?_, hknown'⟩
    rw [grown, PerTable.get_modify, if_neg ht]
    exact htiles
  | @parts name segments index entry _ _ fits names refers _ grown =>
    have hblock' : e'.parts.toList = (entries ++ [entry]).flatMap PartsEntry.bytes := by
      rw [grown, Array.toList_appendList, hblock, List.flatMap_append, List.flatMap_singleton]
    refine ⟨entries ++ [entry], hblock', ?_, ?_⟩
    · have hlen : entry.segments.length = segments.length := List.Forall₂.length_eq refers
      have hbegins : (UInt32.ofNat e.parts.size).toNat = e.parts.size :=
        toNat_ofNat_of_lt (by omega)
      have hsize : (UInt32.ofNat (PartsEntry.size segments.length)).toNat
          = 12 + 12 * entry.segments.length := by
        rw [toNat_ofNat_of_lt (by omega), hlen, PartsEntry.size]
      have hstop : e'.parts.size = StringRef.stop
          ⟨.ofNat e.parts.size, .ofNat (PartsEntry.size segments.length)⟩ := by
        rw [StringRef.stop, hbegins, hsize, ← Array.length_toList, hblock', List.flatMap_append,
          ← hblock, List.flatMap_singleton, List.length_append, PartsEntry.length_bytes,
          Array.length_toList, PartsEntry.size]
      rw [hstop, grown, PerTable.get_modify, if_pos rfl, Array.toList_push]
      exact htiles.snoc hbegins hsize
    · intro other hother
      rcases List.mem_append.mp hother with hother | hother
      · exact hknown' other hother
      · rw [List.mem_singleton.mp hother]
        exact ⟨Interner.knows_of_get? names, refers.knows⟩

/-- **Every operation keeps the parts in agreement.** -/
theorem Consistent.emit (he : e.Consistent) (h : (Stencil.emit c op).run e = .ok () e') :
    e'.Consistent where
  indices t := by
    rw [indices_of_emit h, he.indices, count_of_emit h]
    split
    · rw [List.range_succ, List.map_append, List.map_singleton]
    · rw [List.append_nil, Nat.add_zero]
  whole t := by
    rw [size_of_emit h, he.whole, count_of_emit h]
    split
    · rw [Nat.add_mul, Nat.one_mul]
    · rfl
  refs t ht r hr := by
    have hemitted := emit_eq_ok h
    rcases hemitted.mem_or_knows ht hr with hr | hr
    · exact (he.refs t ht r hr).mono hemitted.strings_isPrefix
    · exact hr
  parts := he.parts_of_emitted (emit_eq_ok h)

end Emit

end Emitter

/-- **The parts of an emitter that calls lead to agree**, whatever operations and forests were
emitted and whichever of them found a table full. -/
theorem Emitter.Reachable.consistent {c : Config} {e : Emitter} (h : e.Reachable c) :
    e.Consistent :=
  h.keeps consistent_empty (fun ds he => he.noting ds) fun he hr => he.emit hr

/-- Tables of one entry each: a second value with segments is refused, and so is the second tag of
the forest that follows. -/
theorem Emitter.consistent_after_full_tables :
    (Emit.after (emitNodes { maxEntries := 1 }
        [.element { name := "p" } [.text "p" {}], .element { name := "b" } []])
      (Emit.after (emit { maxEntries := 1 } (.valueParts "d" []))
        (Emit.after (emit { maxEntries := 1 }
          (.valueParts "c" [.static "", .static "p", .dynamic "p"])) {}))).Consistent := by
  have hfirst := Reachable.fresh.emit (c := { maxEntries := 1 })
    (.valueParts "c" [.static "", .static "p", .dynamic "p"]) (by decide +kernel)
  have hsecond := hfirst.emit (.valueParts "d" []) (by decide +kernel)
  refine Reachable.consistent (c := { maxEntries := 1 }) ?_
  exact hsecond.emitNodes
    [.element { name := "p" } [.text "p" {}], .element { name := "b" } []] (by decide +kernel)

end Stencil
