import Stencil.Emit.Compile
import Stencil.Proofs.Emit.Step
import Stencil.Proofs.Wire.Loading

/-!
# Runs of an emitter

An emitter carries a list of operations: its instructions stand for them, one by one, in the image
of its sections, and the counts of that image fit into a header. Emitting an operation puts it at
the end of the list, and a call that finds its table full leaves the list as it is. So whatever
calls an emitter has seen, its image is read back as the operations whose calls succeeded.

## Main definitions

* `Emitter.Carries`: the operations that an emitter stands for
* `emitEach`: calls in a row, of which some may fail

## Main results

* `Emitter.Carries.emit`: emitting an operation puts it at the end
* `Emitter.Carries.load`, `Emitter.Carries.decode`: reading an emitter's image back
* `decode_emitEach`: **the round trip of every run of calls**
-/

namespace Stencil

open Stencil.Wire

namespace Emitter

variable {e e' : Emitter} {c : Config}

@[simp] theorem image_words (e : Emitter) :
    e.image.words = e.instructions.toList.map Instr.pack := rfl

@[simp] theorem image_strings (e : Emitter) : e.image.strings = e.strings.bytes := rfl

@[simp] theorem image_tables (e : Emitter) : e.image.tables = e.tables := rfl

@[simp] theorem image_parts (e : Emitter) : e.image.parts = e.parts.toList := rfl

@[simp] theorem image_count (e : Emitter) (t : Table) : e.image.count t = e.count t := rfl

theorem length_image_words (e : Emitter) : e.image.words.length = e.instructions.size := by
  rw [image_words, List.length_map, Array.length_toList]

theorem length_image_strings_lt (e : Emitter) : e.image.strings.length < wordLimit := by
  rw [image_strings, Interner.length_bytes]
  exact e.strings.fits

/-- The reference of an interned string is followed to it. -/
theorem string_of_get? {s : String} {r : StringRef} (h : e.strings.get? s = some r) :
    e.image.string r = .ok s := by
  rw [Image.string_eq_ok_iff]
  exact Interner.slice?_of_get? h

theorem segment_of_get? {s : Segment} {r : SegmentRef} (hk : r.kind = s.kind)
    (h : e.strings.get? s.text = some r.value) : e.image.segment r = .ok s := by
  rw [Image.segment, string_of_get? h, hk]
  exact congrArg Except.ok s.ofKind_kind_text

/-- The operations that an emitter stands for. -/
structure Carries (e : Emitter) (ops : List Op) : Prop where
  /-- The counts of its image fit into a header. -/
  fits : e.image.Fits
  /-- Its instructions stand for the operations, one by one. -/
  holds : List.Forall₂ e.image.Holds e.instructions.toList ops

theorem carries_nil : ({} : Emitter).Carries [] where
  fits :=
    { words := by decide
      strings := by decide
      tables := fun t => by cases t <;> rfl
      counts := fun t => by cases t <;> decide
      parts := by decide }
  holds := .nil

/-- One more instruction, sections that have grown, and an image that still fits. -/
theorem Carries.push {ops : List Op} (h : e.Carries ops) {instr : Instr} {op : Op}
    (hi : e'.instructions = e.instructions.push instr) (he : e.image.Extends e'.image)
    (hf : e'.image.Fits) (ho : e'.image.Holds instr op) : e'.Carries (ops ++ [op]) where
  fits := hf
  holds := by
    rw [hi, Array.toList_push]
    exact List.rel_append (h.holds.imp fun _ _ => Image.Holds.mono he) (.cons ho .nil)

/-! ## Tables that grow by an entry -/

theorem size_modify_append (e : Emitter) (t u : Table) (refs : List StringRef) :
    ((e.tables.modify t (· ++ refs.toArray)).get u).size
      = (e.tables.get u).size + if u = t then refs.length else 0 := by
  rw [PerTable.get_modify]
  split
  · rename_i hut
    rw [hut, Array.size_append]
    rfl
  · rfl

/-- A table with the references of one entry more has one entry more. -/
theorem count_of_modify {t : Table} {refs : List StringRef}
    (ht : e'.tables = e.tables.modify t (· ++ refs.toArray)) (hl : refs.length = t.arity)
    (u : Table) : e'.count u = e.count u + if u = t then 1 else 0 := by
  rw [count, count, ht, size_modify_append]
  split
  · rename_i hut
    rw [hl, hut, Nat.add_div_right _ t.arity_pos]
  · rw [Nat.add_zero]
    rfl

/-- An image fits if the one before it did and one of its tables has one more entry. -/
theorem fits_of_modify (hf : e.image.Fits) {t : Table} {refs : List StringRef}
    (ht : e'.tables = e.tables.modify t (· ++ refs.toArray)) (hl : refs.length = t.arity)
    (hlt : e.count t < c.payloadLimit) (hw : e'.instructions.size < wordLimit)
    (hp : e'.parts.size < wordLimit) : e'.image.Fits := by
  have hlimit : c.payloadLimit < wordLimit := by
    have := c.payloadLimit_le
    simp only [entryCeiling, wordLimit, UInt32.size] at this ⊢
    omega
  have hcount := count_of_modify ht hl
  refine
    { words := by rwa [length_image_words]
      strings := e'.length_image_strings_lt
      tables := fun u => ?_
      counts := fun u => ?_
      parts := by rwa [image_parts, Array.length_toList] }
  · have hu := hf.tables u
    rw [image_tables, image_count] at hu ⊢
    rw [hcount, ht, size_modify_append, hu, Nat.add_mul]
    split
    · rename_i hut
      rw [hl, hut, Nat.one_mul]
    · rw [Nat.zero_mul]
  · have hu := hf.counts u
    rw [image_count] at hu ⊢
    rw [hcount]
    split
    · rename_i hut
      rw [hut]
      omega
    · exact hu

theorem tables_isPrefix_of_modify {t : Table} {refs : List StringRef}
    (ht : e'.tables = e.tables.modify t (· ++ refs.toArray)) (u : Table) :
    (e.image.tables.get u).toList <+: (e'.image.tables.get u).toList := by
  rw [image_tables, image_tables, ht, PerTable.get_modify]
  split
  · rename_i hut
    rw [hut, Array.toList_append]
    exact List.prefix_append _ _
  · exact List.prefix_rfl

/-- The entry that was added last is the one behind those that were there. -/
theorem refsAt_of_modify (hf : e.image.Fits) {t : Table} {refs : List StringRef}
    (ht : e'.tables = e.tables.modify t (· ++ refs.toArray)) (hl : refs.length = t.arity) :
    e'.image.refsAt t (e.count t) = refs := by
  have hs := hf.tables t
  rw [image_tables, image_count] at hs
  rw [Image.refsAt, image_tables, ht, PerTable.get_modify, if_pos rfl, Array.toList_append, ← hs,
    ← Array.length_toList, List.drop_left, ← hl, List.take_length]

/-! ## One operation more -/

theorem Carries.pushInstr {ops : List Op} (h : e.Carries ops) {instr : Instr} {op : Op}
    (ho : ∀ i : Image, i.Holds instr op) (hr : (Emit.pushInstr instr).run e = .ok () e') :
    e'.Carries (ops ++ [op]) := by
  obtain ⟨hroom, rfl⟩ := Emit.pushInstr_eq_ok hr
  refine h.push rfl ⟨List.prefix_rfl, fun _ => List.prefix_rfl, List.prefix_rfl⟩ ?_ (ho _)
  refine
    { words := ?_
      strings := h.fits.strings
      tables := h.fits.tables
      counts := h.fits.counts
      parts := h.fits.parts }
  rw [length_image_words, Array.size_push]
  omega

theorem Carries.entry {ops : List Op} (h : e.Carries ops) {op : Op} {t : Table}
    {strings : List String} (row : op.row? = some (t, strings))
    (hr : (Emit.entry c t strings).run e = .ok () e') : e'.Carries (ops ++ [op]) := by
  obtain ⟨index, refs, hindex, hlt, hroom, hrefs, hp, he'⟩ := Emit.entry_eq_ok hr
  have ht : e'.tables = e.tables.modify t (· ++ refs.toArray) := by rw [he']
  have hl : refs.length = t.arity := by
    rw [List.Forall₂.length_eq hrefs, Op.length_of_row? row]
  have hi : e'.instructions = e.instructions.push (.entry t index) := by rw [he']
  have hparts : e'.parts = e.parts := by rw [he']
  refine h.push hi ⟨Interner.bytes_isPrefix hp, tables_isPrefix_of_modify ht, ?_⟩ ?_ ?_
  · have : e'.image.parts = e.image.parts := by rw [image_parts, image_parts, hparts]
    exact this ▸ List.prefix_rfl
  · refine fits_of_modify h.fits ht hl hlt ?_ ?_
    · rw [hi, Array.size_push]
      omega
    · rw [hparts, ← Array.length_toList]
      exact h.fits.parts
  · -- The index was taken before the entry was added, and is that of the new entry.
    refine .entry row ?_ (List.Forall₂.imp (fun _ _ hrs => string_of_get? hrs) hrefs)
    rw [hindex, refsAt_of_modify h.fits ht hl]

theorem Carries.valueParts {ops : List Op} (h : e.Carries ops) {name : String}
    {segments : List Segment} (hr : (Emit.valueParts c name segments).run e = .ok () e') :
    e'.Carries (ops ++ [.valueParts name segments]) := by
  obtain ⟨index, entry, hindex, hlt, hroom, hfits, hname, hsegments, hp, he'⟩ :=
    Emit.valueParts_eq_ok hr
  have hlen : entry.segments.length = segments.length := List.Forall₂.length_eq hsegments
  have hsize : PartsEntry.size segments.length = 12 + 12 * segments.length := rfl
  have ht : e'.tables = e.tables.modify .valueParts
      (· ++ [⟨.ofNat e.parts.size, .ofNat (PartsEntry.size segments.length)⟩].toArray) := by
    rw [he']
    simp only [Array.append_singleton]
  have hi : e'.instructions = e.instructions.push (.entry .valueParts index) := by rw [he']
  have hparts : e'.parts.toList = e.parts.toList ++ entry.bytes := by
    rw [he', Array.toList_appendList]
  refine h.push hi ⟨Interner.bytes_isPrefix hp, tables_isPrefix_of_modify ht, ?_⟩ ?_ ?_
  · rw [image_parts, image_parts, hparts]
    exact List.prefix_append _ _
  · refine fits_of_modify h.fits ht rfl hlt ?_ ?_
    · rw [hi, Array.size_push]
      omega
    · rw [← Array.length_toList, hparts, List.length_append, Array.length_toList,
        PartsEntry.length_bytes, hlen]
      exact hfits
  · have hentry := Image.entryAt?_of_refsAt (refsAt_of_modify h.fits ht rfl)
    rw [← hindex] at hentry
    refine .valueParts hentry ?_ (by omega) (string_of_get? hname)
      (List.Forall₂.imp (fun _ _ hs => segment_of_get? hs.1 hs.2) hsegments)
    rw [image_parts, hparts, ← List.append_nil (_ ++ _)]
    refine StringRef.slice?_mk Array.length_toList.symm ?_ hfits
    rw [PartsEntry.length_bytes, hlen]

/-- **Emitting an operation puts it at the end** of those that an emitter carries. -/
theorem Carries.emit {ops : List Op} (h : e.Carries ops) {op : Op}
    (hr : (emit c op).run e = .ok () e') : e'.Carries (ops ++ [op]) := by
  cases hrow : op.row? with
  | some p =>
    rw [emit_of_row? c hrow] at hr
    exact h.entry hrow hr
  | none =>
    cases op with
    | tagClose => exact h.pushInstr (fun _ => .tagClose) hr
    | selfClosing => exact h.pushInstr (fun _ => .selfClosing) hr
    | valueParts name segments => exact h.valueParts hr
    | _ => cases hrow

/-- The image of an emitter is read back. -/
theorem Carries.load {ops : List Op} (h : e.Carries ops) : Image.load e.image.bytes = .ok e.image :=
  Image.load_bytes h.fits

/-- The image of an emitter decodes to the operations that it carries. -/
theorem Carries.decode {ops : List Op} (h : e.Carries ops) : e.image.decode = .ok ops :=
  Image.decode_eq_ok rfl h.holds

end Emitter

/-! ## Calls in a row -/

/-- Calls in a row, of which some may fail: each with its failure, if it has one, and the emitter
after all of them. -/
def emitEach (c : Config) : List Op → Emitter → List (Op × Option CompileError) × Emitter
  | [], e => ([], e)
  | op :: rest, e =>
    match (emit c op).run e with
    | .ok _ e' => ((op, none) :: (emitEach c rest e').1, (emitEach c rest e').2)
    -- A failure does not end the run: the next call finds the emitter as this one left it.
    | .error err e' => ((op, some err) :: (emitEach c rest e').1, (emitEach c rest e').2)

/-- The operations of the calls that succeeded. -/
def succeeded (calls : List (Op × Option CompileError)) : List Op :=
  calls.filterMap fun
    | (op, none) => some op
    | (_, some _) => none

variable {c : Config} {e e' : Emitter} {op : Op} {calls : List Op}

theorem emitEach_cons_of_ok (h : (emit c op).run e = .ok () e') :
    emitEach c (op :: calls) e
      = ((op, none) :: (emitEach c calls e').1, (emitEach c calls e').2) := by
  rw [emitEach, h]

theorem emitEach_cons_of_error {err : CompileError} (h : (emit c op).run e = .error err e') :
    emitEach c (op :: calls) e
      = ((op, some err) :: (emitEach c calls e').1, (emitEach c calls e').2) := by
  rw [emitEach, h]

theorem map_fst_emitEach (c : Config) (calls : List Op) (e : Emitter) :
    (emitEach c calls e).1.map Prod.fst = calls := by
  induction calls generalizing e with
  | nil => rfl
  | cons op calls ih =>
    cases h : (emit c op).run e with
    | ok _ e' => rw [emitEach_cons_of_ok h, List.map_cons, ih]
    | error err e' => rw [emitEach_cons_of_error h, List.map_cons, ih]

/-- What an emitter carries after calls in a row: what it carried, and the operations of the calls
that succeeded. -/
theorem Emitter.Carries.emitEach {ops : List Op} (h : e.Carries ops)
    (hlimit : ∀ call ∈ (Stencil.emitEach c calls e).1, ∀ err ∈ call.2, err.isLimit = false) :
    (Stencil.emitEach c calls e).2.Carries (ops ++ succeeded (Stencil.emitEach c calls e).1) := by
  induction calls generalizing e ops with
  | nil => simpa [Stencil.emitEach, succeeded] using h
  | cons op calls ih =>
    cases hr : (Stencil.emit c op).run e with
    | ok u e' =>
      rw [emitEach_cons_of_ok hr] at hlimit ⊢
      have hrest := ih (h.emit hr) fun call hc => hlimit call (List.mem_cons_of_mem _ hc)
      rwa [List.append_assoc] at hrest
    | error err e' =>
      rw [emitEach_cons_of_error hr] at hlimit ⊢
      have hfalse : err.isLimit = false := hlimit _ (List.mem_cons_self ..) err rfl
      rcases emit_eq_error hr with ⟨rfl, -⟩ | htrue
      · exact ih h fun call hc => hlimit call (List.mem_cons_of_mem _ hc)
      · rw [htrue] at hfalse
        cases hfalse

/-- **The round trip of every run of calls.** Whatever operations are emitted in a row, and
whichever of them find their tables full, the image is accepted by a reader, and decodes to the
operations of the calls that succeeded, in the order of the calls. -/
theorem decode_emitEach (c : Config) (calls : List Op)
    (hlimit : ∀ call ∈ (emitEach c calls {}).1, ∀ err ∈ call.2, err.isLimit = false) :
    (emitEach c calls {}).1.map Prod.fst = calls ∧
      ∃ i, Image.load (emitEach c calls {}).2.compiled.bytes = .ok i ∧
        i.decode = .ok (succeeded (emitEach c calls {}).1) := by
  have h := Emitter.carries_nil.emitEach hlimit
  exact ⟨map_fst_emitEach c calls {}, _, h.load, h.decode⟩

/-- Tables of one entry each: the second tag and the second value with segments find no room, and
the calls around them are read back. -/
theorem decode_emitEach_full_tables :
    ∃ i, Image.load (emitEach { maxEntries := 1 }
        [.tagOpen "p", .valueParts "c" [.static "", .static "p", .dynamic "p"], .tagOpen "é",
          .valueParts "d" [], .text "p", .tagClose] {}).2.compiled.bytes = .ok i ∧
      i.decode = .ok [.tagOpen "p", .valueParts "c" [.static "", .static "p", .dynamic "p"],
        .text "p", .tagClose] := by
  obtain ⟨-, i, hload, hdecode⟩ := decode_emitEach { maxEntries := 1 }
    [.tagOpen "p", .valueParts "c" [.static "", .static "p", .dynamic "p"], .tagOpen "é",
      .valueParts "d" [], .text "p", .tagClose] (by decide +kernel)
  refine ⟨i, hload, hdecode.trans ?_⟩
  decide +kernel

end Stencil
