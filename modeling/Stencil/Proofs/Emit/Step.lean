import Mathlib.Data.List.Forall2
import Stencil.Emit.Emitter
import Stencil.Proofs.Wire.Interning
import Stencil.Proofs.Wire.Reading

/-!
# What emitting an operation changes

An operation that is emitted adds to the end of every section that it touches: strings that are
new, the references of one entry, an entry of value parts, and one instruction. One that finds its
table full changes nothing.

## Main definitions

* `Emitter.Refers`: references of strings in an emitter
* `CompileError.isLimit`: a section of an image ran out of 32 bits
* `Emitter.Emitted`: what emitting an operation changes

## Main results

* `Emit.run_bind_eq_ok`, `Emit.run_bind_eq_error`: taking a sequence of actions apart
* `Emit.entry_eq_ok`, `Emit.valueParts_eq_ok`: what a plain entry and value parts change
* `Emit.entry_eq_error`, `Emit.valueParts_eq_error`: why they fail
* `emit_eq_ok`, `emit_eq_error`: what emitting an operation changes, and why it is refused
-/

namespace Stencil

open Stencil.Wire

namespace Wire.PerTable

variable {α : Type}

@[simp] theorem modify_modify (p : PerTable α) (t : Table) (f g : α → α) :
    (p.modify t f).modify t g = p.modify t fun a => g (f a) := by
  cases t <;> rfl

theorem modify_id (p : PerTable α) (t : Table) : (p.modify t fun a => a) = p := by
  cases t <;> rfl

end Wire.PerTable

/-- Whether a section of an image ran out of 32 bits, as opposed to a full table. -/
def CompileError.isLimit : CompileError → Bool
  | .tableFull _ _ _ => false
  | .stringsFull _ | .partsFull _ | .instructionsFull _ => true

namespace Emitter

/-- The references of strings, which are all interned. -/
def Refers (e : Emitter) (refs : List StringRef) (strings : List String) : Prop :=
  List.Forall₂ (fun r s => e.strings.get? s = some r) refs strings

/-- The segments whose texts are interned. -/
def RefersSegments (e : Emitter) (refs : List SegmentRef) (segments : List Segment) : Prop :=
  List.Forall₂ (fun r s => r.kind = s.kind ∧ e.strings.get? s.text = some r.value) refs segments

theorem Refers.mono {e e' : Emitter} (hp : e.strings.strings <+: e'.strings.strings)
    {refs : List StringRef} {strings : List String} (h : e.Refers refs strings) :
    e'.Refers refs strings :=
  h.imp fun _ _ hr => Interner.get?_of_isPrefix hp hr

end Emitter

namespace Emit

variable {α β : Type} {c : Config} {e e' : Emitter} {err : CompileError}

/-! ## Sequences of actions -/

theorem run_bind_eq_ok {a : Emit α} {f : α → Emit β} {b : β} :
    (a >>= f).run e = .ok b e' ↔ ∃ x e₁, a.run e = .ok x e₁ ∧ (f x).run e₁ = .ok b e' := by
  rw [EStateM.run_bind]
  cases a.run e with
  | ok x e₁ => simp
  | error err e₁ => simp

theorem run_bind_eq_error {a : Emit α} {f : α → Emit β} :
    (a >>= f).run e = .error err e' ↔ a.run e = .error err e' ∨
      ∃ x e₁, a.run e = .ok x e₁ ∧ (f x).run e₁ = .error err e' := by
  rw [EStateM.run_bind]
  cases a.run e with
  | ok x e₁ => simp
  | error err e₁ => simp

/-! ## Single actions -/

theorem run_intern (s : String) (e : Emitter) :
    (intern s).run e =
      match e.strings.intern s with
      | .ok (r, strings) => .ok r { e with strings }
      | .error size => .error (.stringsFull size) e := rfl

theorem run_pushInstr (i : Instr) (e : Emitter) :
    (pushInstr i).run e =
      if e.instructions.size < wordLimit - 1 then
        .ok () { e with instructions := e.instructions.push i }
      else .error (.instructionsFull (e.instructions.size + 1)) e := rfl

theorem run_reserveParts (size : Nat) (e : Emitter) :
    (reserveParts size).run e =
      if e.parts.size + size < wordLimit then .ok e.parts.size e
      else .error (.partsFull (e.parts.size + size)) e := rfl

theorem run_reserve_of_lt {t : Table} (h : e.count t < c.payloadLimit) :
    ∃ index : PayloadIndex, index.val = e.count t ∧ (reserve c t).run e = .ok index e :=
  ⟨_, rfl, dif_pos h⟩

theorem run_reserve_of_le {t : Table} (h : c.payloadLimit ≤ e.count t) :
    (reserve c t).run e = .error (.tableFull (.entry t) (e.count t + 1) c.payloadLimit) e :=
  dif_neg (Nat.not_lt.mpr h)

theorem intern_eq_ok {s : String} {r : StringRef} (h : (intern s).run e = .ok r e') :
    e' = { e with strings := e'.strings } ∧ e.strings.strings <+: e'.strings.strings ∧
      e'.strings.get? s = some r := by
  rw [run_intern] at h
  split at h
  · rename_i hi
    cases h
    exact ⟨rfl, Interner.isPrefix_of_intern hi, (Interner.intern_eq_ok hi).2⟩
  · cases h

theorem intern_eq_error {s : String} (h : (intern s).run e = .error err e') :
    err.isLimit = true := by
  rw [run_intern] at h
  split at h
  · cases h
  · cases h
    rfl

theorem pushInstr_eq_ok {i : Instr} (h : (pushInstr i).run e = .ok () e') :
    e.instructions.size < wordLimit - 1 ∧
      e' = { e with instructions := e.instructions.push i } := by
  rw [run_pushInstr] at h
  split at h
  · rename_i hlt
    cases h
    exact ⟨hlt, rfl⟩
  · cases h

theorem pushInstr_eq_error {i : Instr} (h : (pushInstr i).run e = .error err e') :
    err.isLimit = true := by
  rw [run_pushInstr] at h
  split at h
  · cases h
  · cases h
    rfl

theorem reserve_eq_ok {t : Table} {index : PayloadIndex} (h : (reserve c t).run e = .ok index e') :
    e' = e ∧ index.val = e.count t ∧ e.count t < c.payloadLimit := by
  rcases Nat.lt_or_ge (e.count t) c.payloadLimit with hlt | hge
  · obtain ⟨index', hi, hr⟩ := run_reserve_of_lt hlt
    rw [hr] at h
    cases h
    exact ⟨rfl, hi, hlt⟩
  · rw [run_reserve_of_le hge] at h
    cases h

/-- A full table is found out before anything changes. -/
theorem reserve_eq_error {t : Table} (h : (reserve c t).run e = .error err e') :
    e' = e ∧ err = .tableFull (.entry t) (e.count t + 1) c.payloadLimit ∧
      c.payloadLimit ≤ e.count t := by
  rcases Nat.lt_or_ge (e.count t) c.payloadLimit with hlt | hge
  · obtain ⟨index', -, hr⟩ := run_reserve_of_lt hlt
    rw [hr] at h
    cases h
  · rw [run_reserve_of_le hge] at h
    cases h
    exact ⟨rfl, rfl, hge⟩

theorem reserveParts_eq_ok {size offset : Nat} (h : (reserveParts size).run e = .ok offset e') :
    e' = e ∧ offset = e.parts.size ∧ e.parts.size + size < wordLimit := by
  rw [run_reserveParts] at h
  split at h
  · rename_i hlt
    cases h
    exact ⟨rfl, rfl, hlt⟩
  · cases h

theorem reserveParts_eq_error {size : Nat} (h : (reserveParts size).run e = .error err e') :
    err.isLimit = true := by
  rw [run_reserveParts] at h
  split at h
  · cases h
  · cases h
    rfl

/-! ## Plain entries -/

/-- Interning the strings of an entry adds their references to its table. -/
theorem forM_intern_eq_ok {t : Table} {strings : List String}
    (h : (strings.forM fun s => do
      let r ← intern s
      pushRef t r).run e = .ok () e') :
    ∃ refs : List StringRef, e'.Refers refs strings ∧
      e.strings.strings <+: e'.strings.strings ∧
      e' = { e with strings := e'.strings
                    tables := e.tables.modify t (· ++ refs.toArray) } := by
  induction strings generalizing e with
  | nil =>
    cases h
    refine ⟨[], .nil, List.prefix_rfl, ?_⟩
    simp only [Array.append_empty, PerTable.modify_id]
  | cons s strings ih =>
    rw [List.forM_eq_forM, List.forM_cons] at h
    obtain ⟨_, e₂, hpush, hrest⟩ := run_bind_eq_ok.mp h
    obtain ⟨r, e₁, hintern, hmodify⟩ := run_bind_eq_ok.mp hpush
    obtain ⟨he₁, hp₁, hr⟩ := intern_eq_ok hintern
    obtain ⟨refs, hrefs, hp₂, he'⟩ := ih hrest
    -- The reference of the first string stays what it is while the others are interned.
    cases hmodify
    refine ⟨r :: refs, .cons (Interner.get?_of_isPrefix hp₂ hr) hrefs, hp₁.trans hp₂, ?_⟩
    rw [he', he₁]
    simp

theorem forM_intern_eq_error {t : Table} {strings : List String}
    (h : (strings.forM fun s => do
      let r ← intern s
      pushRef t r).run e = .error err e') : err.isLimit = true := by
  induction strings generalizing e with
  | nil => cases h
  | cons s strings ih =>
    rw [List.forM_eq_forM, List.forM_cons] at h
    rcases run_bind_eq_error.mp h with hfirst | ⟨_, e₁, -, hrest⟩
    · rcases run_bind_eq_error.mp hfirst with hintern | ⟨_, _, -, hpush⟩
      · exact intern_eq_error hintern
      · cases hpush
    · exact ih hrest

/-- **What a plain entry changes**: its strings are interned, their references are added to the
table, and an instruction names the new entry, which is the one behind those that were there. -/
theorem entry_eq_ok {t : Table} {strings : List String}
    (h : (entry c t strings).run e = .ok () e') :
    ∃ (index : PayloadIndex) (refs : List StringRef), index.val = e.count t ∧
      e.count t < c.payloadLimit ∧ e.instructions.size < wordLimit - 1 ∧
      e'.Refers refs strings ∧ e.strings.strings <+: e'.strings.strings ∧
      e' = { e with strings := e'.strings
                    tables := e.tables.modify t (· ++ refs.toArray)
                    instructions := e.instructions.push (.entry t index) } := by
  obtain ⟨index, e₁, hreserve, h₁⟩ := run_bind_eq_ok.mp h
  obtain ⟨rfl, hindex, hlt⟩ := reserve_eq_ok hreserve
  obtain ⟨_, e₂, hforM, hpush⟩ := run_bind_eq_ok.mp h₁
  obtain ⟨refs, hrefs, hp, he₂⟩ := forM_intern_eq_ok hforM
  obtain ⟨hroom, rfl⟩ := pushInstr_eq_ok hpush
  have hinstr : e₂.instructions = e₁.instructions := by rw [he₂]
  refine ⟨index, refs, hindex, hlt, hinstr ▸ hroom, hrefs, hp, ?_⟩
  rw [he₂]

/-- Why a plain entry fails: its table is full and nothing has changed, or a section ran out of
32 bits. -/
theorem entry_eq_error {t : Table} {strings : List String}
    (h : (entry c t strings).run e = .error err e') :
    (e' = e ∧ err = .tableFull (.entry t) (e.count t + 1) c.payloadLimit ∧
      c.payloadLimit ≤ e.count t) ∨ err.isLimit = true := by
  rcases run_bind_eq_error.mp h with hreserve | ⟨_, e₁, -, h⟩
  · exact .inl (reserve_eq_error hreserve)
  · rcases run_bind_eq_error.mp h with hforM | ⟨_, e₂, -, hpush⟩
    · exact .inr (forM_intern_eq_error hforM)
    · exact .inr (pushInstr_eq_error hpush)

/-! ## Value parts -/

theorem segment_eq_ok {s : Segment} {r : SegmentRef} (h : (segment s).run e = .ok r e') :
    e' = { e with strings := e'.strings } ∧ e.strings.strings <+: e'.strings.strings ∧
      r.kind = s.kind ∧ e'.strings.get? s.text = some r.value := by
  obtain ⟨value, e₁, hintern, hpure⟩ := run_bind_eq_ok.mp h
  obtain ⟨he₁, hp, hr⟩ := intern_eq_ok hintern
  cases hpure
  exact ⟨he₁, hp, rfl, hr⟩

theorem segment_eq_error {s : Segment} (h : (segment s).run e = .error err e') :
    err.isLimit = true := by
  rcases run_bind_eq_error.mp h with hintern | ⟨_, _, -, hpure⟩
  · exact intern_eq_error hintern
  · cases hpure

/-- Interning the segments of a value changes the strings only. -/
theorem mapM_segment_eq_ok {segments : List Segment} {refs : List SegmentRef}
    (h : (segments.mapM segment).run e = .ok refs e') :
    e'.RefersSegments refs segments ∧ e.strings.strings <+: e'.strings.strings ∧
      e' = { e with strings := e'.strings } := by
  induction segments generalizing e refs with
  | nil =>
    cases h
    exact ⟨.nil, List.prefix_rfl, rfl⟩
  | cons s segments ih =>
    rw [List.mapM_cons] at h
    obtain ⟨r, e₁, hseg, h⟩ := run_bind_eq_ok.mp h
    obtain ⟨rest, e₂, hrest, hpure⟩ := run_bind_eq_ok.mp h
    cases hpure
    obtain ⟨he₁, hp₁, hk, hr⟩ := segment_eq_ok hseg
    obtain ⟨hrefs, hp₂, he₂⟩ := ih hrest
    refine ⟨.cons ⟨hk, Interner.get?_of_isPrefix hp₂ hr⟩ hrefs, hp₁.trans hp₂, ?_⟩
    rw [he₂, he₁]

theorem mapM_segment_eq_error {segments : List Segment}
    (h : (segments.mapM segment).run e = .error err e') : err.isLimit = true := by
  induction segments generalizing e with
  | nil => cases h
  | cons s segments ih =>
    rw [List.mapM_cons] at h
    rcases run_bind_eq_error.mp h with hseg | ⟨_, e₁, -, h⟩
    · exact segment_eq_error hseg
    · rcases run_bind_eq_error.mp h with hrest | ⟨_, _, -, hpure⟩
      · exact ih hrest
      · cases hpure

/-- **What value parts change**: name and segments are interned, their entry is added to the block
of value parts, and the table and an instruction name it. -/
theorem valueParts_eq_ok {name : String} {segments : List Segment}
    (h : (valueParts c name segments).run e = .ok () e') :
    ∃ (index : PayloadIndex) (entry : PartsEntry), index.val = e.count .valueParts ∧
      e.count .valueParts < c.payloadLimit ∧ e.instructions.size < wordLimit - 1 ∧
      e.parts.size + PartsEntry.size segments.length < wordLimit ∧
      e'.strings.get? name = some entry.name ∧ e'.RefersSegments entry.segments segments ∧
      e.strings.strings <+: e'.strings.strings ∧
      e' = { e with
        strings := e'.strings
        parts := e.parts ++ entry.bytes
        tables := e.tables.modify .valueParts
          (·.push ⟨.ofNat e.parts.size, .ofNat (PartsEntry.size segments.length)⟩)
        instructions := e.instructions.push (.entry .valueParts index) } := by
  -- Asking for room, in the table and in the block, changes nothing.
  obtain ⟨index, e₁, hreserve, h₁⟩ := run_bind_eq_ok.mp h
  obtain ⟨rfl, hindex, hlt⟩ := reserve_eq_ok hreserve
  obtain ⟨offset, e₂, hparts, h₂⟩ := run_bind_eq_ok.mp h₁
  obtain ⟨rfl, rfl, hfits⟩ := reserveParts_eq_ok hparts
  obtain ⟨nameRef, e₃, hname, h₃⟩ := run_bind_eq_ok.mp h₂
  obtain ⟨he₃, hp₃, hn⟩ := intern_eq_ok hname
  obtain ⟨refs, e₄, hsegments, h₄⟩ := run_bind_eq_ok.mp h₃
  obtain ⟨hrefs, hp₄, he₄⟩ := mapM_segment_eq_ok hsegments
  obtain ⟨_, e₅, hmodify, h₅⟩ := run_bind_eq_ok.mp h₄
  obtain ⟨_, e₆, hpushRef, hpush⟩ := run_bind_eq_ok.mp h₅
  obtain ⟨hroom, rfl⟩ := pushInstr_eq_ok hpush
  have hlen : refs.length = segments.length := hrefs.length_eq
  have hinstr : e₄.instructions = e₂.instructions := by rw [he₄, he₃]
  cases hmodify
  cases hpushRef
  rw [hlen]
  refine ⟨index, ⟨nameRef, refs⟩, hindex, hlt, hinstr ▸ hroom, hfits,
    Interner.get?_of_isPrefix hp₄ hn, hrefs, hp₃.trans hp₄, ?_⟩
  rw [he₄, he₃]

/-- Why value parts fail: the table is full and nothing has changed, or a section ran out of 32
bits. -/
theorem valueParts_eq_error {name : String} {segments : List Segment}
    (h : (valueParts c name segments).run e = .error err e') :
    (e' = e ∧ err = .tableFull (.entry .valueParts) (e.count .valueParts + 1) c.payloadLimit ∧
      c.payloadLimit ≤ e.count .valueParts) ∨ err.isLimit = true := by
  -- Only the first action looks at the table, and it has nothing in front of it to undo.
  rcases run_bind_eq_error.mp h with hreserve | ⟨_, _, -, h⟩
  · exact .inl (reserve_eq_error hreserve)
  rcases run_bind_eq_error.mp h with hparts | ⟨_, _, -, h⟩
  · exact .inr (reserveParts_eq_error hparts)
  rcases run_bind_eq_error.mp h with hname | ⟨_, _, -, h⟩
  · exact .inr (intern_eq_error hname)
  rcases run_bind_eq_error.mp h with hsegments | ⟨_, _, -, h⟩
  · exact .inr (mapM_segment_eq_error hsegments)
  rcases run_bind_eq_error.mp h with hmodify | ⟨_, _, -, h⟩
  · cases hmodify
  rcases run_bind_eq_error.mp h with hpushRef | ⟨_, _, -, hpush⟩
  · cases hpushRef
  · exact .inr (pushInstr_eq_error hpush)

end Emit

/-! ## Operations -/

/-- An operation that is stored as a plain entry. -/
theorem emit_of_row? (c : Config) {op : Op} {t : Table} {strings : List String}
    (h : op.row? = some (t, strings)) : emit c op = Emit.entry c t strings := by
  cases op <;> cases h <;> rfl

/-- **Why an operation is refused**: its table is full and nothing has changed, or a section ran
out of 32 bits. -/
theorem emit_eq_error {c : Config} {op : Op} {e e' : Emitter} {err : CompileError}
    (h : (emit c op).run e = .error err e') :
    (e' = e ∧ ∃ t, op.opcode = .entry t ∧ c.payloadLimit ≤ e.count t ∧
      err = .tableFull (.entry t) (e.count t + 1) c.payloadLimit) ∨ err.isLimit = true := by
  cases hrow : op.row? with
  | some p =>
    obtain ⟨t, strings⟩ := p
    rw [emit_of_row? c hrow] at h
    rcases Emit.entry_eq_error h with ⟨he, herr, hle⟩ | hlimit
    · exact .inl ⟨he, t, Op.opcode_of_row? hrow, hle, herr⟩
    · exact .inr hlimit
  | none =>
    cases op with
    | tagClose => exact .inr (Emit.pushInstr_eq_error h)
    | selfClosing => exact .inr (Emit.pushInstr_eq_error h)
    | valueParts name segments =>
      rcases Emit.valueParts_eq_error h with ⟨he, herr, hle⟩ | hlimit
      · exact .inl ⟨he, .valueParts, rfl, hle, herr⟩
      · exact .inr hlimit
    | _ => cases hrow

/-- What emitting an operation changes: an instruction is added, and for an operation that uses a
table also the entry that the instruction names, behind those that were there. -/
inductive Emitter.Emitted (c : Config) (e e' : Emitter) : Op → Prop
  | closing {op : Op} {instr : Instr}
      (ends : op = .tagClose ∧ instr = .tagClose ∨ op = .selfClosing ∧ instr = .selfClosing)
      (grown : e' = { e with instructions := e.instructions.push instr }) : Emitted c e e' op
  | row {op : Op} {t : Table} {strings : List String} {index : PayloadIndex}
      {refs : List StringRef} (row : op.row? = some (t, strings)) (index_eq : index.val = e.count t)
      (room : e.count t < c.payloadLimit) (refers : e'.Refers refs strings)
      (interned : e.strings.strings <+: e'.strings.strings)
      (grown : e' = { e with strings := e'.strings
                             tables := e.tables.modify t (· ++ refs.toArray)
                             instructions := e.instructions.push (.entry t index) }) :
      Emitted c e e' op
  | parts {name : String} {segments : List Segment} {index : PayloadIndex} {entry : PartsEntry}
      (index_eq : index.val = e.count .valueParts) (room : e.count .valueParts < c.payloadLimit)
      (fits : e.parts.size + PartsEntry.size segments.length < wordLimit)
      (names : e'.strings.get? name = some entry.name)
      (refers : e'.RefersSegments entry.segments segments)
      (interned : e.strings.strings <+: e'.strings.strings)
      (grown : e' = { e with
        strings := e'.strings
        parts := e.parts ++ entry.bytes
        tables := e.tables.modify .valueParts
          (·.push ⟨.ofNat e.parts.size, .ofNat (PartsEntry.size segments.length)⟩)
        instructions := e.instructions.push (.entry .valueParts index) }) :
      Emitted c e e' (.valueParts name segments)

/-- **What emitting an operation changes.** -/
theorem emit_eq_ok {c : Config} {op : Op} {e e' : Emitter}
    (h : (emit c op).run e = .ok () e') : e.Emitted c e' op := by
  cases hrow : op.row? with
  | some p =>
    rw [emit_of_row? c hrow] at h
    obtain ⟨index, refs, hindex, hroom, -, hrefs, hp, he'⟩ := Emit.entry_eq_ok h
    exact .row hrow hindex hroom hrefs hp he'
  | none =>
    cases op with
    | tagClose => exact .closing (.inl ⟨rfl, rfl⟩) (Emit.pushInstr_eq_ok h).2
    | selfClosing => exact .closing (.inr ⟨rfl, rfl⟩) (Emit.pushInstr_eq_ok h).2
    | valueParts name segments =>
      obtain ⟨index, entry, hindex, hroom, -, hfits, hname, hsegments, hp, he'⟩ :=
        Emit.valueParts_eq_ok h
      exact .parts hindex hroom hfits hname hsegments hp he'
    | _ => cases hrow

/-- Emitting an operation reports nothing. -/
theorem diagnostics_of_emit {c : Config} {op : Op} {e e' : Emitter}
    (h : (emit c op).run e = .ok () e') : e'.diagnostics = e.diagnostics := by
  cases emit_eq_ok h with
  | closing _ grown => rw [grown]
  | row _ _ _ _ _ grown => rw [grown]
  | parts _ _ _ _ _ _ grown => rw [grown]

end Stencil
