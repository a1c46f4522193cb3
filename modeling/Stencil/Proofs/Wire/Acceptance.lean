import Stencil.Proofs.Wire.PartsLayout
import Stencil.Proofs.Wire.Reading

/-!
# Which images decode

An image that was accepted may still hold anything in its sections. It decodes exactly if each of
its words is sound: the opcode exists, the entry lies in its table, and every reference that is
reached from there lies inside its section and names text, through an entry of the block of value
parts if need be. Soundness is said of the bytes and knows nothing of the order in which a reader
checks them. The order shows in the faults: of all that is wrong with a word one thing is blamed,
and of all unsound words the first one.

## Main definitions

* `Image.NamesText`, `Image.EntrySound`, `Image.Sound`: what a reference, an entry of value parts
  and a word have to be
* `Image.TextFault`, `Image.EntryFault`, `Image.Fault`: what is blamed otherwise

## Main results

* `Image.judged_entry`: the outcome of an entry of value parts
* `Image.judged_opOfWord`, `Image.judged_decodeFrom`: the outcome of a word, and of a stream
* `Image.decode_iff_sound`: **an image decodes exactly if all of its words are sound, and
  otherwise blames the first one that is not**
-/

namespace Stencil.Wire

open Stencil.Text

namespace Image

/-! ## What a reader expects, and what it blames -/

/-- A reference lies inside the string bytes, and those it names are the bytes of a text. -/
def NamesText (i : Image) (r : StringRef) : Prop :=
  r.stop ≤ i.strings.length ∧
    ∃ s : String, (i.strings.drop r.offset.toNat).take r.length.toNat = Utf8.encode s

/-- The fault of a reference that names no text. -/
inductive TextFault (i : Image) (r : StringRef) : ImageError → Prop
  | outside (h : i.strings.length < r.stop) :
      TextFault i r (.stringOutOfRange r i.strings.length)
  | invalid (inside : r.stop ≤ i.strings.length)
      (h : ∀ s : String, (i.strings.drop r.offset.toNat).take r.length.toNat ≠ Utf8.encode s) :
      TextFault i r (.invalidText r)

/-- A byte string is an entry of value parts whose kinds exist and whose references name text. -/
def EntrySound (i : Image) (data : List UInt8) : Prop :=
  ∃ name segments, LaidOut data name segments ∧ (∀ s ∈ segments, IsKind s) ∧
    (∀ s ∈ segments, i.NamesText s.2) ∧ i.NamesText name

/-- The fault of a byte string that is no sound entry of value parts. Kinds come before texts, and
the name comes last. -/
inductive EntryFault (i : Image) (data : List UInt8) : ImageError → Prop
  | layout {err : ImageError} (h : LayoutFault data err) : EntryFault i data err
  | kind {name : StringRef} {segments : List (UInt32 × StringRef)} {err : ImageError}
      (layout : LaidOut data name segments) (first : FirstFault IsKind KindFault segments err) :
      EntryFault i data err
  | segment {name : StringRef} {segments : List (UInt32 × StringRef)} {err : ImageError}
      (layout : LaidOut data name segments) (kinds : ∀ s ∈ segments, IsKind s)
      (first : FirstFault (fun s => i.NamesText s.2) (fun s => i.TextFault s.2) segments err) :
      EntryFault i data err
  | name {name : StringRef} {segments : List (UInt32 × StringRef)} {err : ImageError}
      (layout : LaidOut data name segments) (kinds : ∀ s ∈ segments, IsKind s)
      (texts : ∀ s ∈ segments, i.NamesText s.2) (fault : i.TextFault name err) :
      EntryFault i data err

/-- What a reference of a table has to name: a sound entry of value parts, or text. -/
def RefSound (i : Image) : Table → StringRef → Prop
  | .valueParts, r => ∃ data, r.slice? i.parts = some data ∧ i.EntrySound data
  | _, r => i.NamesText r

/-- The fault of a reference of a table. -/
def RefFault (i : Image) : Table → StringRef → ImageError → Prop
  | .valueParts, r, err =>
    i.parts.length < r.stop ∧ err = .stringOutOfRange r i.parts.length ∨
      ∃ data, r.slice? i.parts = some data ∧ i.EntryFault data err
  | _, r, err => i.TextFault r err

/-- An instruction word that leads to an operation: its opcode exists, and if that uses a table,
the upper bytes number an entry of the table, and the references there are sound. -/
def Sound (i : Image) (w : UInt32) : Prop :=
  w.toNat % 256 ≤ 10 ∧ ∀ t, w.toNat % 256 = (Opcode.entry t).code.toNat →
    w.toNat / 256 < i.count t ∧ ∀ r ∈ i.refsAt t (w.toNat / 256), i.RefSound t r

/-- The fault of an unsound word, the one numbered `index`. -/
inductive Fault (i : Image) (index : Nat) (w : UInt32) : ImageError → Prop
  | opcode (h : 10 < w.toNat % 256) : Fault i index w (.unknownOpcode index (.ofNat w.toNat))
  | payload {t : Table} (opcode : w.toNat % 256 = (Opcode.entry t).code.toNat)
      (h : i.count t ≤ w.toNat / 256) :
      Fault i index w (.payloadOutOfRange index (.entry t) (w.toNat / 256) (i.count t))
  | entry {t : Table} {err : ImageError} (opcode : w.toNat % 256 = (Opcode.entry t).code.toNat)
      (inside : w.toNat / 256 < i.count t)
      (first : FirstFault (i.RefSound t) (i.RefFault t) (i.refsAt t (w.toNat / 256)) err) :
      Fault i index w err

/-! ## Texts and entries of value parts -/

theorem judged_string (i : Image) (r : StringRef) :
    Judged (i.string r) (i.NamesText r) (i.TextFault r) := by
  rw [string, StringRef.slice?, NamesText]
  by_cases h : r.stop ≤ i.strings.length
  · rw [if_pos h]
    simp only [h, true_and]
    have hout : ¬ i.strings.length < r.stop := Nat.not_lt.mpr h
    cases hd : Utf8.decode? ((i.strings.drop r.offset.toNat).take r.length.toNat) with
    | some s =>
      have hs := Utf8.decode?_eq_some_iff.mp hd
      refine (judged_ok s).congr (by simpa using ⟨s, hs⟩) fun err => ?_
      simp only [false_iff]
      rintro (h | ⟨-, h⟩)
      · exact hout h
      · exact h s hs
    | none =>
      have hs : ∀ s : String,
          (i.strings.drop r.offset.toNat).take r.length.toNat ≠ Utf8.encode s := by
        intro s hs
        rw [Utf8.decode?_eq_some_iff.mpr hs] at hd
        cases hd
      refine (judged_error (.invalidText r)).congr (by simpa using hs) fun err => ?_
      constructor
      · rintro rfl
        exact .invalid h hs
      · rintro (h | -)
        · exact absurd h hout
        · rfl
  · rw [if_neg h]
    refine (judged_error (.stringOutOfRange r i.strings.length)).congr (by simp [h]) fun err => ?_
    constructor
    · rintro rfl
      exact .outside (Nat.lt_of_not_le h)
    · rintro (- | ⟨h', -⟩)
      · rfl
      · exact absurd h' h

theorem judged_segment (i : Image) (s : SegmentRef) :
    Judged (i.segment s) (i.NamesText s.value) (i.TextFault s.value) :=
  (i.judged_string s.value).map _

/-- The texts of segments whose kinds were looked up. -/
theorem judged_mapM_segment (i : Image) {raw : List (UInt32 × StringRef)}
    {refs : List SegmentRef} (h : raw.mapM segmentOf = .ok refs) :
    Judged (refs.mapM i.segment) (∀ s ∈ raw, i.NamesText s.2)
      (FirstFault (fun s => i.NamesText s.2) (fun s => i.TextFault s.2) raw) := by
  have hvalues := values_of_mapM h
  refine (Judged.mapM i.judged_segment refs).congr ?_ fun err => ?_
  · rw [← List.forall_mem_map (P := i.NamesText), hvalues, List.forall_mem_map]
  · rw [← firstFault_map (P := i.NamesText) (F := i.TextFault), hvalues, firstFault_map]

/-- The attribute of an entry of value parts. -/
def attributeOf (i : Image) (entry : PartsEntry) : Except ImageError Op := do
  let segments ← entry.segments.mapM i.segment
  let name ← i.string entry.name
  pure (.valueParts name segments)

section Entries

variable {i : Image} {data : List UInt8} {name : StringRef} {segments : List (UInt32 × StringRef)}

theorem entrySound_iff (layout : LaidOut data name segments) :
    i.EntrySound data ↔ (∀ s ∈ segments, IsKind s) ∧ (∀ s ∈ segments, i.NamesText s.2) ∧
      i.NamesText name := by
  constructor
  · rintro ⟨name', segments', h, hsound⟩
    obtain ⟨rfl, rfl⟩ := layout.unique h
    exact hsound
  · intro h
    exact ⟨name, segments, layout, h⟩

/-- What is at fault with an entry that is laid out. -/
theorem entryFault_iff (layout : LaidOut data name segments) (err : ImageError) :
    i.EntryFault data err ↔ FirstFault IsKind KindFault segments err ∨
      (∀ s ∈ segments, IsKind s) ∧
        (FirstFault (fun s => i.NamesText s.2) (fun s => i.TextFault s.2) segments err ∨
          (∀ s ∈ segments, i.NamesText s.2) ∧ i.TextFault name err) := by
  constructor
  · intro h
    cases h with
    | layout h => exact absurd layout (h.not_laidOut _ _)
    | kind l first =>
      obtain ⟨rfl, rfl⟩ := layout.unique l
      exact .inl first
    | segment l kinds first =>
      obtain ⟨rfl, rfl⟩ := layout.unique l
      exact .inr ⟨kinds, .inl first⟩
    | name l kinds texts fault =>
      obtain ⟨rfl, rfl⟩ := layout.unique l
      exact .inr ⟨kinds, .inr ⟨texts, fault⟩⟩
  · rintro (first | ⟨kinds, first | ⟨texts, fault⟩⟩)
    · exact .kind layout first
    · exact .segment layout kinds first
    · exact .name layout kinds texts fault

/-- What is at fault with an entry that is not laid out. -/
theorem entryFault_iff_of_layoutFault {err : ImageError} (h : LayoutFault data err)
    (err' : ImageError) : i.EntryFault data err' ↔ err' = err := by
  constructor
  · intro h'
    cases h' with
    | layout h' => exact h'.unique h
    | kind l _ => exact absurd l (h.not_laidOut _ _)
    | segment l _ _ => exact absurd l (h.not_laidOut _ _)
    | name l _ _ _ => exact absurd l (h.not_laidOut _ _)
  · rintro rfl
    exact .layout h

end Entries

/-- **The outcome of an entry of value parts.** -/
theorem judged_entry (i : Image) (data : List UInt8) :
    Judged (PartsEntry.ofBytes data >>= i.attributeOf) (i.EntrySound data)
      (i.EntryFault data) := by
  rcases ofBytes_cases data with ⟨name, segments, layout, hof⟩ | ⟨err, fault, hof⟩
  · -- All kinds are looked up before a text is read, and the name is read last.
    rw [hof]
    refine (((Judged.mapM judged_segmentOf segments).map _).bind ?_).congr
      (entrySound_iff layout).symm fun err => (entryFault_iff layout err).symm
    intro entry hentry
    cases hrefs : segments.mapM segmentOf with
    | error e =>
      rw [hrefs] at hentry
      cases hentry
    | ok refs =>
      rw [hrefs] at hentry
      cases hentry
      refine ((i.judged_mapM_segment hrefs).bind fun texts _ =>
        (i.judged_string name).bind fun text _ => judged_ok (Op.valueParts text texts)).congr ?_ ?_
      · simp
      · simp
  · rw [hof]
    refine (judged_error err).congr ?_ fun err' => (entryFault_iff_of_layoutFault fault err').symm
    simp only [false_iff]
    rintro ⟨name, segments, layout, -⟩
    exact fault.not_laidOut name segments layout

/-! ## Entries of tables -/

section Tables

variable {i : Image} {t : Table} {payload : Nat}

theorem length_refsAt (h : payload < i.count t) : (i.refsAt t payload).length = t.arity := by
  have hle : (payload + 1) * t.arity ≤ (i.tables.get t).size :=
    Nat.le_trans (Nat.mul_le_mul_right _ h) (Nat.div_mul_le_self _ _)
  rw [Nat.add_mul, Nat.one_mul] at hle
  rw [refsAt, List.length_take, List.length_drop, Array.length_toList]
  omega

theorem entryAt?_of_lt (ht : t.arity = 1) (h : payload < i.count t) :
    ∃ r, i.refsAt t payload = [r] ∧ i.entryAt? t payload = some r := by
  obtain ⟨r, hr⟩ := List.length_eq_one_iff.mp (ht ▸ length_refsAt h)
  exact ⟨r, hr, entryAt?_of_refsAt hr⟩

theorem entryAt?_of_le (ht : t.arity = 1) (h : i.count t ≤ payload) :
    i.entryAt? t payload = none := by
  rw [count, ht, Nat.div_one] at h
  rw [entryAt?, ht, Nat.mul_one]
  exact Array.getElem?_eq_none h

theorem pair?_of_lt (ht : t.arity = 2) (h : payload < i.count t) :
    ∃ a b, i.refsAt t payload = [a, b] ∧ i.pair? t payload = some (a, b) := by
  obtain ⟨a, b, hab⟩ := List.length_eq_two.mp (ht ▸ length_refsAt h)
  exact ⟨a, b, hab, pair?_of_refsAt ht hab⟩

theorem pair?_of_le (ht : t.arity = 2) (h : i.count t ≤ payload) : i.pair? t payload = none := by
  rw [count, ht] at h
  have hnone : (i.tables.get t)[payload * 2 + 1]? = none := Array.getElem?_eq_none (by omega)
  rw [pair?, if_pos ht, hnone]
  split
  · rename_i hb
    cases hb
  · rfl

end Tables

/-- The outcome of an entry of a table: it has to be there, and its references are read in their
order. -/
def OfEntry (i : Image) (index : Nat) (t : Table) (payload : Nat) {β : Type}
    (x : Except ImageError β) : Prop :=
  Judged x (payload < i.count t ∧ ∀ r ∈ i.refsAt t payload, i.RefSound t r) fun err =>
    i.count t ≤ payload ∧ err = .payloadOutOfRange index (.entry t) payload (i.count t) ∨
      payload < i.count t ∧
        FirstFault (i.RefSound t) (i.RefFault t) (i.refsAt t payload) err

section Entries

variable {i : Image} {t : Table} {index payload : Nat} {β : Type} {x : Except ImageError β}

/-- An entry that is not there. -/
theorem ofEntry_of_le (h : i.count t ≤ payload)
    (hx : x = .error (.payloadOutOfRange index (.entry t) payload (i.count t))) :
    i.OfEntry index t payload x := by
  have hlt : ¬ payload < i.count t := Nat.not_lt.mpr h
  rw [hx]
  exact (judged_error _).congr (by simp [hlt]) fun err => by simp [h, hlt]

/-- An entry that is there. -/
theorem ofEntry_of_lt (h : payload < i.count t)
    (hx : Judged x (∀ r ∈ i.refsAt t payload, i.RefSound t r)
      (FirstFault (i.RefSound t) (i.RefFault t) (i.refsAt t payload))) :
    i.OfEntry index t payload x := by
  have hle : ¬ i.count t ≤ payload := Nat.not_le.mpr h
  exact hx.congr (by simp [h]) fun err => by simp [h, hle]

theorem ofEntry_single (ht : t.arity = 1) (hs : i.RefSound t = i.NamesText)
    (hf : i.RefFault t = i.TextFault) :
    i.OfEntry index t payload (i.single index t payload) := by
  rcases Nat.lt_or_ge payload (i.count t) with h | h
  · obtain ⟨r, hr, hentry⟩ := entryAt?_of_lt ht h
    refine ofEntry_of_lt h ?_
    rw [single, hentry, hr, hs, hf]
    exact (i.judged_string r).congr (by simp) fun err => firstFault_singleton.symm
  · exact ofEntry_of_le h (by rw [single, entryAt?_of_le ht h])

theorem ofEntry_double (ht : t.arity = 2) (hs : i.RefSound t = i.NamesText)
    (hf : i.RefFault t = i.TextFault) :
    i.OfEntry index t payload (i.double index t payload) := by
  rcases Nat.lt_or_ge payload (i.count t) with h | h
  · obtain ⟨a, b, hab, hpair⟩ := pair?_of_lt ht h
    refine ofEntry_of_lt h ?_
    rw [double, hpair, hab, hs, hf]
    refine ((i.judged_string a).bind fun first _ =>
      (i.judged_string b).bind fun second _ => judged_ok (first, second)).congr ?_ fun err => ?_
    · simp
    · rw [firstFault_cons, firstFault_singleton]
      simp
  · exact ofEntry_of_le h (by rw [double, pair?_of_le ht h])

theorem ofEntry_valueParts : i.OfEntry index .valueParts payload (i.valueParts index payload) := by
  rcases Nat.lt_or_ge payload (i.count .valueParts) with h | h
  · obtain ⟨r, hr, hentry⟩ := entryAt?_of_lt rfl h
    refine ofEntry_of_lt h ?_
    have hx : i.valueParts index payload = i.partsEntry r >>= i.attributeOf := by
      rw [valueParts, hentry]
      rfl
    rw [hx, hr, partsEntry]
    cases hslice : r.slice? i.parts with
    | none =>
      have hstop : i.parts.length < r.stop := StringRef.slice?_eq_none_iff.mp hslice
      refine (judged_error _).congr ?_ fun err => ?_
      · simp [RefSound, hslice]
      · simp [firstFault_singleton, RefFault, hslice, hstop]
    | some data =>
      have hstop : ¬ i.parts.length < r.stop :=
        Nat.not_lt.mpr (StringRef.stop_le_of_slice? hslice)
      refine (i.judged_entry data).congr ?_ fun err => ?_
      · simp [RefSound, hslice]
      · simp [firstFault_singleton, RefFault, hslice, hstop]
  · exact ofEntry_of_le h (by rw [valueParts, entryAt?_of_le rfl h])

theorem OfEntry.map {γ : Type} (h : i.OfEntry index t payload x) (f : β → γ) :
    i.OfEntry index t payload (x.map f) :=
  Judged.map h f

end Entries

/-- The outcome of an instruction that uses a table. -/
theorem ofEntry_op (i : Image) (index : Nat) (t : Table) (p : PayloadIndex) :
    i.OfEntry index t p (i.op index (.entry t p)) := by
  cases t with
  | tagOpen => exact (ofEntry_single rfl rfl rfl).map _
  | text => exact (ofEntry_single rfl rfl rfl).map _
  | dynText => exact (ofEntry_single rfl rfl rfl).map _
  | staticAttr => exact (ofEntry_double rfl rfl rfl).map _
  | staticDynAttr => exact (ofEntry_double rfl rfl rfl).map _
  | dynStaticAttr => exact (ofEntry_double rfl rfl rfl).map _
  | dynDynAttr => exact (ofEntry_double rfl rfl rfl).map _
  | dynEvent => exact (ofEntry_double rfl rfl rfl).map _
  | valueParts => exact ofEntry_valueParts

end Image

/-! ## Words -/

namespace Opcode

/-- The opcodes stand under their numbers. -/
theorem ofCode?_eq_some_iff {n : UInt8} {o : Opcode} : ofCode? n = some o ↔ o.code = n := by
  constructor
  · intro h
    have hcodes : all.map (·.code.toNat) = List.range 11 := rfl
    have hn : (all.map (·.code.toNat))[n.toNat]? = some o.code.toNat := by
      rw [List.getElem?_map, show all[n.toNat]? = some o from h]
      rfl
    rw [hcodes, List.getElem?_eq_some_iff] at hn
    obtain ⟨hlt, hn⟩ := hn
    rw [List.getElem_range] at hn
    exact UInt8.toNat_inj.mp hn.symm
  · rintro rfl
    exact ofCode?_code o

theorem ofCode?_eq_none_iff {n : UInt8} : ofCode? n = none ↔ 10 < n.toNat := by
  rw [ofCode?, List.getElem?_eq_none_iff]
  exact Nat.succ_le_iff

theorem code_toNat_inj {o o' : Opcode} : o.code.toNat = o'.code.toNat ↔ o = o' := by
  constructor
  · intro h
    have := ofCode?_code o
    rw [UInt8.toNat_inj.mp h, ofCode?_code, Option.some.injEq] at this
    exact this.symm
  · rintro rfl
    rfl

end Opcode

namespace Instr

theorem toNat_ofNat_word (w : UInt32) : (UInt8.ofNat w.toNat).toNat = w.toNat % 256 :=
  UInt8.toNat_ofNat'

/-- The instruction of a word has the opcode that the low byte numbers, and the upper bytes as its
payload, if it has one. -/
theorem of_unpack?_eq_some {w : UInt32} {instr : Instr} (h : unpack? w = some instr) :
    instr.opcode.code.toNat = w.toNat % 256 ∧
      ∀ p ∈ instr.payload?, p.val = w.toNat / 256 := by
  obtain ⟨o, ho, rfl⟩ := Option.map_eq_some_iff.mp h
  have hcode : o.code.toNat = w.toNat % 256 := by
    rw [Opcode.ofCode?_eq_some_iff.mp ho, toNat_ofNat_word]
  cases o with
  | tagClose => exact ⟨hcode, by simp [ofOpcode, payload?]⟩
  | selfClosing => exact ⟨hcode, by simp [ofOpcode, payload?]⟩
  | entry t => exact ⟨hcode, by simp [ofOpcode, payload?]⟩

theorem unpack?_eq_none_iff {w : UInt32} : unpack? w = none ↔ 10 < w.toNat % 256 := by
  rw [unpack?, Option.map_eq_none_iff, Opcode.ofCode?_eq_none_iff, toNat_ofNat_word]

/-- An instruction that uses no table ends an element. -/
theorem eq_of_table?_eq_none {instr : Instr} (h : instr.opcode.table? = none) :
    instr = .tagClose ∨ instr = .selfClosing := by
  cases instr with
  | tagClose => exact .inl rfl
  | selfClosing => exact .inr rfl
  | entry t p => cases h

end Instr

namespace Image

variable {i : Image}

section Words

variable {index : Nat} {w : UInt32}

/-- A word whose opcode does not exist. -/
theorem judged_unknown {β : Type} (h : 10 < w.toNat % 256) :
    Judged (.error (.unknownOpcode index (.ofNat w.toNat)) : Except ImageError β) (i.Sound w)
      (i.Fault index w) := by
  have hno : ∀ t, w.toNat % 256 ≠ (Opcode.entry t).code.toNat := by
    intro t
    have := (Opcode.entry t).code_lt
    omega
  refine (judged_error _).congr ?_ fun err => ?_
  · have hle : ¬ w.toNat % 256 ≤ 10 := Nat.not_le.mpr h
    simp [Sound, hle]
  · constructor
    · rintro rfl
      exact .opcode h
    · intro hfault
      cases hfault with
      | opcode => rfl
      | payload h _ => exact absurd h (hno _)
      | entry h _ _ => exact absurd h (hno _)

/-- A word that uses no table: nothing is asked of its upper bytes. -/
theorem judged_closing (op : Op) (hle : w.toNat % 256 ≤ 10)
    (hno : ∀ t, w.toNat % 256 ≠ (Opcode.entry t).code.toNat) :
    Judged (.ok op : Except ImageError Op) (i.Sound w) (i.Fault index w) := by
  refine (judged_ok op).congr ?_ fun err => ?_
  · simp [Sound, hle, hno]
  · simp only [false_iff]
    intro hfault
    cases hfault with
    | opcode h => omega
    | payload h _ => exact hno _ h
    | entry h _ _ => exact hno _ h

/-- A word that uses a table. -/
theorem OfEntry.judged {t : Table} {x : Except ImageError Op}
    (hcode : w.toNat % 256 = (Opcode.entry t).code.toNat)
    (hx : i.OfEntry index t (w.toNat / 256) x) : Judged x (i.Sound w) (i.Fault index w) := by
  have hle : w.toNat % 256 ≤ 10 := by
    have := (Opcode.entry t).code_lt
    omega
  have honly : ∀ u, w.toNat % 256 = (Opcode.entry u).code.toNat → u = t := by
    intro u hu
    obtain ⟨rfl⟩ := Opcode.code_toNat_inj.mp (hu.symm.trans hcode)
    rfl
  refine Judged.congr hx ?_ fun err => ?_
  · constructor
    · intro h
      exact ⟨hle, fun u hu => honly u hu ▸ h⟩
    · intro h
      exact h.2 t hcode
  · constructor
    · rintro (⟨hcount, rfl⟩ | ⟨hcount, first⟩)
      · exact .payload hcode hcount
      · exact .entry hcode hcount first
    · intro h
      cases h with
      | opcode h => omega
      | payload h hcount =>
        obtain rfl := honly _ h
        exact .inl ⟨hcount, rfl⟩
      | entry h hcount first =>
        obtain rfl := honly _ h
        exact .inr ⟨hcount, first⟩

end Words

/-- **The outcome of a word.** -/
theorem judged_opOfWord (i : Image) (index : Nat) (w : UInt32) :
    Judged (i.opOfWord index w) (i.Sound w) (i.Fault index w) := by
  rw [opOfWord]
  cases hu : Instr.unpack? w with
  | none => exact judged_unknown (Instr.unpack?_eq_none_iff.mp hu)
  | some instr =>
    obtain ⟨hcode, hpayload⟩ := Instr.of_unpack?_eq_some hu
    have hle : w.toNat % 256 ≤ 10 := by
      have := instr.opcode.code_lt
      omega
    have hno : instr.opcode.table? = none →
        ∀ t, w.toNat % 256 ≠ (Opcode.entry t).code.toNat := by
      intro hnone t ht
      rw [Opcode.code_toNat_inj.mp (hcode.trans ht)] at hnone
      cases hnone
    cases instr with
    | tagClose => exact judged_closing .tagClose hle (hno rfl)
    | selfClosing => exact judged_closing .selfClosing hle (hno rfl)
    | entry t p =>
      have hp : p.val = w.toNat / 256 := hpayload p rfl
      exact OfEntry.judged hcode.symm (hp ▸ i.ofEntry_op index t p)

/-! ## Streams -/

/-- **The outcome of a stream**: the first unsound word is to blame. -/
theorem judged_decodeFrom (i : Image) (index : Nat) (ws : List UInt32) :
    Judged (i.decodeFrom index ws) (∀ w ∈ ws, i.Sound w) fun err =>
      ∃ pre w post, ws = pre ++ w :: post ∧ (∀ v ∈ pre, i.Sound v) ∧
        i.Fault (index + pre.length) w err := by
  induction ws generalizing index with
  | nil => exact (judged_ok []).congr (by simp) fun err => by simp
  | cons v ws ih =>
    rw [decodeFrom]
    have hrest := fun op => (ih (index + 1)).bind fun ops _ => judged_ok (op :: ops)
    refine ((i.judged_opOfWord index v).bind fun op _ => hrest op).congr (by simp) fun err => ?_
    simp only [and_false, or_false]
    constructor
    · rintro (hv | ⟨hv, pre, w, post, rfl, hpre, hw⟩)
      · exact ⟨[], v, ws, rfl, by simp, hv⟩
      · refine ⟨v :: pre, w, post, rfl, by simpa using ⟨hv, hpre⟩, ?_⟩
        rwa [List.length_cons, Nat.add_comm pre.length, ← Nat.add_assoc]
    · rintro ⟨pre, w, post, h, hpre, hw⟩
      cases pre with
      | nil =>
        obtain ⟨rfl, rfl⟩ := List.cons.inj h
        exact .inl hw
      | cons u pre =>
        obtain ⟨rfl, rfl⟩ := List.cons.inj h
        refine .inr ⟨hpre _ (by simp), pre, w, post, rfl,
          fun x hx => hpre x (List.mem_cons_of_mem _ hx), ?_⟩
        rwa [List.length_cons, Nat.add_comm pre.length, ← Nat.add_assoc] at hw

/-- Soundness and faults are those of the sections: the other words do not matter. -/
theorem decodeFrom_withWords (i : Image) (others : List UInt32) (index : Nat)
    (ws : List UInt32) :
    ({ i with words := others } : Image).decodeFrom index ws = i.decodeFrom index ws := by
  induction ws generalizing index with
  | nil => rfl
  | cons w ws ih =>
    rw [decodeFrom, decodeFrom, ih]
    rfl

/-- The tables of an accepted byte string have the counts of its header. -/
theorem count_of_load {bytes : List UInt8} (h : load bytes = .ok i) :
    ∃ header : Header, Wire.words (bytes.take headerSize) = header.fields ∧
      i.words.length = header.instructions.toNat ∧
      ∀ t, i.count t = (header.tables.get t).toNat := by
  obtain ⟨header, hfields, hstop, rfl⟩ := load_eq_ok_iff.mp h
  have hsized := sized_ofSections hstop
  refine ⟨header, hfields, hsized.words, fun t => ?_⟩
  rw [count, hsized.tables t, Nat.mul_div_cancel _ t.arity_pos]

/-- **An image decodes exactly if all of its words are sound, and otherwise blames the first one
that is not**, whatever stands behind that. The counts against which entries are checked are those
of the header, and an instruction without a table is one of the two that end an element. -/
theorem decode_iff_sound {bytes : List UInt8} {i : Image} (h : load bytes = .ok i) :
    (∃ header : Header, Wire.words (bytes.take headerSize) = header.fields ∧
      i.words.length = header.instructions.toNat ∧
      ∀ t, i.count t = (header.tables.get t).toNat) ∧
    ((∃ ops, i.decode = .ok ops) ↔ ∀ w ∈ i.words, i.Sound w) ∧
    (∀ err, i.decode = .error err ↔ ∃ pre w post, i.words = pre ++ w :: post ∧
      (∀ v ∈ pre, i.Sound v) ∧ ¬ i.Sound w ∧ i.Fault pre.length w err ∧
      ∀ others, ({ i with words := pre ++ w :: others } : Image).decode = .error err) ∧
    ∀ w ∈ i.words, ∀ instr, Instr.unpack? w = some instr → instr.opcode.table? = none →
      instr = .tagClose ∨ instr = .selfClosing := by
  have hjudged := i.judged_decodeFrom 0 i.words
  refine ⟨count_of_load h, hjudged.ok, fun err => ?_, ?_⟩
  · constructor
    · intro herr
      obtain ⟨pre, w, post, hw, hpre, hfault⟩ := (hjudged.error err).mp herr
      rw [Nat.zero_add] at hfault
      refine ⟨pre, w, post, hw, hpre, (i.judged_opOfWord _ w).not_good hfault, hfault, ?_⟩
      -- The fault depends on the sections and on the words up to it, so that any may follow.
      intro others
      rw [decode, decodeFrom_withWords, (i.judged_decodeFrom 0 _).error]
      exact ⟨pre, w, others, rfl, hpre, (Nat.zero_add pre.length).symm ▸ hfault⟩
    · rintro ⟨pre, w, post, hw, hpre, -, hfault, -⟩
      exact (hjudged.error err).mpr
        ⟨pre, w, post, hw, hpre, (Nat.zero_add pre.length).symm ▸ hfault⟩
  · intro w _ instr _ hnone
    exact Instr.eq_of_table?_eq_none hnone

/-- A closing word with upper bytes and a sound tag, then an entry that is not there, which is
blamed, and an opcode that does not exist. -/
theorem decode_iff_sound_missing_entry :
    ∃ i, load (Image.bytes ⟨[0xFFFFFF01, 0, 0x10A, 0xFF], [112],
        (PerTable.fill #[]).set .tagOpen #[⟨0, 1⟩], []⟩) = .ok i ∧
      ∃ pre w post, i.words = pre ++ w :: post ∧ (∀ v ∈ pre, i.Sound v) ∧ ¬ i.Sound w ∧
        i.Fault pre.length w (.payloadOutOfRange 2 (.entry .valueParts) 1 0) ∧
        ∀ others, ({ i with words := pre ++ w :: others } : Image).decode
          = .error (.payloadOutOfRange 2 (.entry .valueParts) 1 0) := by
  have hload : load (Image.bytes ⟨[0xFFFFFF01, 0, 0x10A, 0xFF], [112],
      (PerTable.fill #[]).set .tagOpen #[⟨0, 1⟩], []⟩)
      = .ok ⟨[0xFFFFFF01, 0, 0x10A, 0xFF], [112],
          (PerTable.fill #[]).set .tagOpen #[⟨0, 1⟩], []⟩ := by
    decide +kernel
  exact ⟨_, hload, ((decode_iff_sound hload).2.2.1 _).mp (by decide +kernel)⟩

end Image

end Stencil.Wire
