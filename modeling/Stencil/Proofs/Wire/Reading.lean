import Mathlib.Data.List.Forall2
import Stencil.Proofs.Wire.Parts
import Stencil.Wire.Image

/-!
# What an instruction stands for

An instruction stands for an operation if the references that its entry holds name the strings of
the operation. This is a relation between an image, an instruction and an operation that says
nothing about the order in which a reader follows references. It is kept when sections grow, and
decoding finds what it says.

## Main definitions

* `Op.row?`: the table and the strings of an operation that is stored as a plain entry
* `Image.refsAt`: the references of an entry
* `Image.Holds`: an instruction of an image stands for an operation
* `Image.Extends`: every section of an image begins as that of another one

## Main results

* `Image.Holds.mono`: an instruction stands for the same operation when sections grow
* `Image.Holds.op_eq_ok`: a reader finds the operation that an instruction stands for
* `Image.decode_eq_ok`: an image decodes to the operations that its instructions stand for
-/

namespace Stencil

open Stencil.Text Stencil.Wire

/-- The table and the strings of an operation that is stored as a plain entry. -/
def Op.row? : Op → Option (Table × List String)
  | tagOpen tag => some (.tagOpen, [tag])
  | text s => some (.text, [s])
  | staticAttr name value => some (.staticAttr, [name, value])
  | dynText field => some (.dynText, [field])
  | staticDynAttr name field => some (.staticDynAttr, [name, field])
  | dynStaticAttr field value => some (.dynStaticAttr, [field, value])
  | dynDynAttr nameField valueField => some (.dynDynAttr, [nameField, valueField])
  | event name handler => some (.dynEvent, [name, handler])
  | tagClose | selfClosing | valueParts _ _ => none

/-- A plain entry has as many references as the entries of its table. -/
theorem Op.length_of_row? {op : Op} {t : Table} {strings : List String}
    (h : op.row? = some (t, strings)) : strings.length = t.arity := by
  cases op <;> cases h <;> rfl

theorem Op.opcode_of_row? {op : Op} {t : Table} {strings : List String}
    (h : op.row? = some (t, strings)) : op.opcode = .entry t := by
  cases op <;> cases h <;> rfl

namespace Wire.Image

variable {i j : Image}

/-- The references of an entry. -/
def refsAt (i : Image) (t : Table) (index : Nat) : List StringRef :=
  ((i.tables.get t).toList.drop (index * t.arity)).take t.arity

theorem string_eq_ok_iff {r : StringRef} {s : String} :
    i.string r = .ok s ↔ r.slice? i.strings = some (Utf8.encode s) := by
  unfold string
  cases r.slice? i.strings with
  | none => simp
  | some bytes =>
    simp only [Option.some.injEq, ← Utf8.decode?_eq_some_iff]
    cases Utf8.decode? bytes <;> simp

theorem entryAt?_of_refsAt {t : Table} {index : Nat} {r : StringRef} {rs : List StringRef}
    (h : i.refsAt t index = r :: rs) : i.entryAt? t index = some r := by
  have h0 := congrArg (fun l => l[0]?) h
  simpa [entryAt?, refsAt, List.getElem?_take, t.arity_pos] using h0

theorem pair?_of_refsAt {t : Table} {index : Nat} {a b : StringRef} {rs : List StringRef}
    (ht : t.arity = 2) (h : i.refsAt t index = a :: b :: rs) : i.pair? t index = some (a, b) := by
  have h0 := congrArg (fun l => l[0]?) h
  have h1 := congrArg (fun l => l[1]?) h
  simp only [refsAt, ht, List.getElem?_take, List.getElem?_drop, Array.getElem?_toList] at h0 h1
  simp only [Nat.zero_lt_two, Nat.one_lt_two, if_true, Nat.add_zero, List.getElem?_cons_zero,
    List.getElem?_cons_succ] at h0 h1
  simp only [pair?, if_pos ht, h0, h1]

/-- An instruction of an image stands for an operation: the references of its entry name the
strings of the operation. -/
inductive Holds (i : Image) : Instr → Op → Prop
  | tagClose : Holds i .tagClose .tagClose
  | selfClosing : Holds i .selfClosing .selfClosing
  | entry {op : Op} {t : Table} {index : PayloadIndex} {strings : List String}
      {refs : List StringRef} (row : op.row? = some (t, strings))
      (refsAt : i.refsAt t index = refs)
      (names : List.Forall₂ (fun r s => i.string r = .ok s) refs strings) :
      Holds i (.entry t index) op
  | valueParts {index : PayloadIndex} {r : StringRef} {e : PartsEntry} {name : String}
      {segments : List Segment} (entry : i.entryAt? .valueParts index = some r)
      (slice : r.slice? i.parts = some e.bytes) (count : e.segments.length < wordLimit)
      (name_eq : i.string e.name = .ok name)
      (names : List.Forall₂ (fun ref s => i.segment ref = .ok s) e.segments segments) :
      Holds i (.entry .valueParts index) (.valueParts name segments)

/-! ## Sections that grow -/

/-- Every section of `i` is the front of that of `j`. -/
structure Extends (i j : Image) : Prop where
  strings : i.strings <+: j.strings
  tables : ∀ t, (i.tables.get t).toList <+: (j.tables.get t).toList
  parts : i.parts <+: j.parts

theorem string_mono (h : i.Extends j) {r : StringRef} {s : String} (hs : i.string r = .ok s) :
    j.string r = .ok s := by
  rw [string_eq_ok_iff] at hs ⊢
  exact StringRef.slice?_of_isPrefix hs h.strings

theorem segment_mono (h : i.Extends j) {r : SegmentRef} {s : Segment}
    (hs : i.segment r = .ok s) : j.segment r = .ok s := by
  unfold segment at hs ⊢
  cases hr : i.string r.value with
  | error e =>
    rw [hr] at hs
    cases hs
  | ok text => rwa [string_mono h hr, ← hr]

theorem entryAt?_mono (h : i.Extends j) {t : Table} {index : Nat} {r : StringRef}
    (hr : i.entryAt? t index = some r) : j.entryAt? t index = some r := by
  obtain ⟨more, hm⟩ := h.tables t
  rw [entryAt?, ← Array.getElem?_toList] at hr ⊢
  have hlt := (List.getElem?_eq_some_iff.mp hr).1
  rw [← hm, List.getElem?_append_left hlt, hr]

/-- A full entry of a table keeps its references. -/
theorem refsAt_mono (h : i.Extends j) {t : Table} {index : Nat}
    (hl : (i.refsAt t index).length = t.arity) : j.refsAt t index = i.refsAt t index := by
  obtain ⟨more, hm⟩ := h.tables t
  rw [refsAt, List.length_take, List.length_drop] at hl
  have hpos := t.arity_pos
  rw [refsAt, refsAt, ← hm, List.drop_append_of_le_length (by omega),
    List.take_append_of_le_length (by rw [List.length_drop]; omega)]

/-- **An instruction stands for the same operation when sections grow.** -/
theorem Holds.mono (h : i.Extends j) {instr : Instr} {op : Op} (ho : i.Holds instr op) :
    j.Holds instr op := by
  cases ho with
  | tagClose => exact .tagClose
  | selfClosing => exact .selfClosing
  | entry row refsAt names =>
    subst refsAt
    refine .entry row (refsAt_mono h ?_) (names.imp fun _ _ => string_mono h)
    rw [names.length_eq, Op.length_of_row? row]
  | valueParts entry slice count name_eq names =>
    exact .valueParts (entryAt?_mono h entry) (StringRef.slice?_of_isPrefix slice h.parts) count
      (string_mono h name_eq) (names.imp fun _ _ => segment_mono h)

/-! ## Decoding -/

theorem single_eq_ok {t : Table} {index payload : Nat} {s : String} {refs : List StringRef}
    (hr : i.refsAt t payload = refs)
    (hs : List.Forall₂ (fun r s => i.string r = .ok s) refs [s]) :
    i.single index t payload = .ok s := by
  obtain ⟨r, rs, hrs, -, rfl⟩ := List.forall₂_cons_right_iff.mp hs
  rw [single, entryAt?_of_refsAt hr]
  exact hrs

theorem double_eq_ok {t : Table} (ht : t.arity = 2) {index payload : Nat} {a b : String}
    {refs : List StringRef} (hr : i.refsAt t payload = refs)
    (hs : List.Forall₂ (fun r s => i.string r = .ok s) refs [a, b]) :
    i.double index t payload = .ok (a, b) := by
  obtain ⟨r, rs, hra, hrs, rfl⟩ := List.forall₂_cons_right_iff.mp hs
  obtain ⟨q, qs, hqb, -, rfl⟩ := List.forall₂_cons_right_iff.mp hrs
  rw [double, pair?_of_refsAt ht hr]
  simp only [hra, hqb]
  rfl

theorem mapM_segment_eq_ok {refs : List SegmentRef} {segments : List Segment}
    (h : List.Forall₂ (fun ref s => i.segment ref = .ok s) refs segments) :
    refs.mapM i.segment = .ok segments := by
  induction h with
  | nil => rfl
  | cons hs _ ih =>
    rw [List.mapM_cons, hs, ih]
    rfl

/-- **A reader finds the operation that an instruction stands for.** -/
theorem Holds.op_eq_ok {instr : Instr} {op : Op} (h : i.Holds instr op) (index : Nat) :
    i.op index instr = .ok op := by
  cases h with
  | tagClose => rfl
  | selfClosing => rfl
  | entry row refsAt names =>
    -- Each kind of operation has a table of its own, with one or two references in an entry.
    cases op <;> cases row
    case entry.tagOpen.refl | entry.text.refl | entry.dynText.refl =>
      rw [Image.op, single_eq_ok refsAt names]
      rfl
    all_goals
      rw [Image.op, double_eq_ok rfl refsAt names]
      rfl
  | valueParts entry slice count name_eq names =>
    -- The reference of the table leads to the block, and those of the block to the strings.
    rw [Image.op, Image.valueParts, entry]
    simp only [partsEntry, slice, PartsEntry.ofBytes_bytes count]
    simp only [bind, Except.bind, mapM_segment_eq_ok names, name_eq]
    rfl

theorem decodeFrom_eq_ok {instrs : List Instr} {ops : List Op}
    (h : List.Forall₂ i.Holds instrs ops) (index : Nat) :
    i.decodeFrom index (instrs.map Instr.pack) = .ok ops := by
  induction h generalizing index with
  | nil => rfl
  | cons ho _ ih =>
    rw [List.map_cons, decodeFrom, opOfWord, Instr.unpack?_pack]
    simp only [ho.op_eq_ok, ih]
    rfl

/-- **An image decodes to the operations that its instructions stand for.** -/
theorem decode_eq_ok {instrs : List Instr} {ops : List Op} (hw : i.words = instrs.map Instr.pack)
    (h : List.Forall₂ i.Holds instrs ops) : i.decode = .ok ops := by
  rw [decode, hw]
  exact decodeFrom_eq_ok h 0

end Wire.Image

end Stencil
