import Mathlib.Data.List.Basic
import Stencil.Wire.Image

/-!
# The layout of an image

Twelve counts fix where every section of an image begins. The sections are placed one behind the
other: only in front of the first table can there be a gap, since entries are whole words. Counts
are words of 32 bits and entries have at most 16 bytes, so that the arithmetic of the layout stays
far below 64 bits whatever the counts are.

A byte string is accepted if its size is the one that its counts ask for. Then the sections tile
it, and following the layout never leaves it.

## Main definitions

* `Header.extent`: the bytes of several tables together
* `Header.machineOffsets?`: the layout in arithmetic of 64 bits that refuses to wrap
* `Header.Tiles`: the sections of a header fill a byte string
* `Image.Sized`: the sections of an image have the sizes that a header gives

## Main results

* `Header.offsets_get`, `Header.offsets_parts`: where the sections begin, in closed form
* `Header.machineOffsets?_eq`: no sum and no product of the layout needs more than 64 bits
* `Header.tiles`: the sections of a header fill the size that its counts ask for
* `Image.load_eq_ok_iff`, `Image.exists_load_iff`: which byte strings are accepted
* `Image.load_layout`: **hostile byte strings cannot break the layout**
-/

namespace Stencil.Wire

/-! ## Words and references in a byte string -/

theorem length_words (bytes : List UInt8) : (words bytes).length = bytes.length / 4 := by
  fun_induction words bytes with
  | case1 a b c d rest ih =>
    simp only [List.length_cons, ih]
    omega
  | case2 l h =>
    match l, h with
    | [], _ | [_], _ | [_, _], _ | [_, _, _], _ => simp
    | a :: b :: c :: d :: rest, h => exact absurd rfl (h a b c d rest)

theorem StringRef.length_ofWords (ws : List UInt32) :
    (StringRef.ofWords ws).length = ws.length / 2 := by
  fun_induction StringRef.ofWords ws with
  | case1 a b rest ih =>
    simp only [List.length_cons, ih]
    omega
  | case2 l h =>
    match l, h with
    | [], _ | [_], _ => simp
    | a :: b :: rest, h => exact absurd rfl (h a b rest)

theorem length_stringRefs (bytes : List UInt8) : (stringRefs bytes).length = bytes.length / 8 := by
  rw [stringRefs, StringRef.length_ofWords, length_words]
  omega

theorem Image.length_span {bytes : List UInt8} {start stop : Nat} (h : stop ≤ bytes.length) :
    (Image.span bytes start stop).length = stop - start := by
  simp only [Image.span, List.length_take, List.length_drop]
  omega

/-! ## Headers -/

namespace Header

theorem length_fields (h : Header) : h.fields.length = 12 := rfl

theorem ofFields?_fields (h : Header) : ofFields? h.fields = some h := rfl

/-- Twelve counts are a header. -/
theorem exists_fields_of_length {l : List UInt32} (h : l.length = 12) :
    ∃ header : Header, l = header.fields := by
  match l, h with
  | [n, s, t0, t1, t2, t3, t4, t5, t6, t7, t8, p], _ =>
    exact ⟨⟨n, s, ⟨t0, t1, t2, t3, t4, t5, t6, t7, t8⟩, p⟩, rfl⟩

theorem ofFields?_eq_none {l : List UInt32} (h : l.length ≠ 12) : ofFields? l = none := by
  unfold ofFields?
  split
  · exact absurd rfl h
  · rfl

/-- The header of a byte string holds its first twelve words. -/
theorem ofBytes?_eq_some_iff {bytes : List UInt8} {h : Header} :
    ofBytes? bytes = some h ↔ words (bytes.take headerSize) = h.fields := by
  rw [ofBytes?]
  constructor
  · intro hh
    by_cases hl : (words (bytes.take headerSize)).length = 12
    · obtain ⟨h', hf⟩ := exists_fields_of_length hl
      rw [hf, ofFields?_fields, Option.some.injEq] at hh
      rw [hf, hh]
    · rw [ofFields?_eq_none hl] at hh
      cases hh
  · intro hf
    rw [hf, ofFields?_fields]

theorem length_words_take (bytes : List UInt8) :
    (words (bytes.take headerSize)).length = 12 ↔ headerSize ≤ bytes.length := by
  rw [length_words, List.length_take, headerSize]
  omega

end Header

/-! ## Where the tables begin -/

namespace Table

/-- The tables that stand in front of a table. -/
def before (t : Table) : List Table :=
  all.takeWhile (· ≠ t)

/-- The tables that stand behind a table. -/
def after (t : Table) : List Table :=
  (all.dropWhile (· ≠ t)).tail

theorem before_append_after (t : Table) : t.before ++ t :: t.after = all := by
  cases t <;> rfl

theorem nodup_all : all.Nodup := by decide

/-- A split of the order of the tables at a table has the tables before it in front. -/
theorem eq_before_of_split {pre post : List Table} {t : Table} (h : all = pre ++ t :: post) :
    pre = t.before := by
  have ht : t ∉ pre := by
    intro hm
    have hd := nodup_all
    rw [h, List.nodup_append] at hd
    exact hd.2.2 t hm t (by simp) rfl
  rw [before, h, List.takeWhile_append_of_pos]
  · simp
  · intro u hu
    simpa using fun hut : u = t => ht (hut ▸ hu)

end Table

theorem alignUp_four_of_mod {n : Nat} (h : n % 4 = 0) : alignUp n 4 = n := by
  rw [alignUp_four]
  omega

theorem alignUp_four_mod (n : Nat) : alignUp n 4 % 4 = 0 := by
  rw [alignUp_four]
  omega

namespace Header

/-- The number of bytes of a table. -/
def tableBytes (h : Header) (t : Table) : Nat :=
  (h.tables.get t).toNat * t.entrySize

/-- The number of bytes of several tables together. -/
def extent (h : Header) (ts : List Table) : Nat :=
  ts.foldr (fun t n => h.tableBytes t + n) 0

@[simp] theorem extent_nil (h : Header) : h.extent [] = 0 := rfl

@[simp] theorem extent_cons (h : Header) (t : Table) (ts : List Table) :
    h.extent (t :: ts) = h.tableBytes t + h.extent ts := rfl

@[simp] theorem extent_append (h : Header) (l m : List Table) :
    h.extent (l ++ m) = h.extent l + h.extent m := by
  induction l with
  | nil => simp
  | cons t l ih => simp [ih, Nat.add_assoc]

theorem tableBytes_mod (h : Header) (t : Table) : h.tableBytes t % 4 = 0 := by
  rw [tableBytes, Table.entrySize, ← Nat.mul_assoc]
  omega

theorem extent_mod (h : Header) (ts : List Table) : h.extent ts % 4 = 0 := by
  induction ts with
  | nil => rfl
  | cons t ts ih =>
    have := h.tableBytes_mod t
    rw [extent_cons]
    omega

/-- Places one more table behind those placed so far. -/
def place (h : Header) (s : PerTable Nat × Nat) (t : Table) : PerTable Nat × Nat :=
  (s.1.set t (alignUp s.2 4), alignUp s.2 4 + h.tableBytes t)

theorem placeTables_eq_foldl (h : Header) (cursor : Nat) :
    h.placeTables cursor = Table.all.foldl h.place (.fill 0, cursor) := rfl

/-- From an aligned place on, tables stand back to back. -/
theorem foldl_place {h : Header} (ts : List Table) {s : PerTable Nat × Nat} (hs : s.2 % 4 = 0) :
    (ts.foldl h.place s).2 = s.2 + h.extent ts := by
  induction ts generalizing s with
  | nil => rfl
  | cons t ts ih =>
    have ht := h.tableBytes_mod t
    have hp : (h.place s t).2 = s.2 + h.tableBytes t := by
      rw [place, alignUp_four_of_mod hs]
    rw [List.foldl_cons, ih (by omega), hp, extent_cons, Nat.add_assoc]

/-- A table is not moved by those placed after it. -/
theorem foldl_place_get_of_notMem {h : Header} {ts : List Table} {t : Table} (ht : t ∉ ts)
    (s : PerTable Nat × Nat) : (ts.foldl h.place s).1.get t = s.1.get t := by
  induction ts generalizing s with
  | nil => rfl
  | cons u ts ih =>
    rw [List.mem_cons, not_or] at ht
    obtain ⟨hu, hts⟩ := ht
    rw [List.foldl_cons, ih hts, place, PerTable.get_set, if_neg hu]

/-- Placing the tables from any place on is placing them from the next aligned one on. -/
theorem placeTables_alignUp (h : Header) (cursor : Nat) :
    h.placeTables cursor = h.placeTables (alignUp cursor 4) := by
  have hp : h.place (.fill 0, cursor) .tagOpen = h.place (.fill 0, alignUp cursor 4) .tagOpen := by
    rw [place, place, alignUp_four_of_mod (alignUp_four_mod cursor)]
  simp only [placeTables_eq_foldl, Table.all, List.foldl_cons, hp]

theorem placeTables_snd (h : Header) (cursor : Nat) :
    (h.placeTables cursor).2 = alignUp cursor 4 + h.extent Table.all := by
  rw [placeTables_alignUp, placeTables_eq_foldl, foldl_place _ (alignUp_four_mod cursor)]

theorem placeTables_get (h : Header) (cursor : Nat) (t : Table) :
    (h.placeTables cursor).1.get t = alignUp cursor 4 + h.extent t.before := by
  have hall := t.before_append_after
  have ht : t ∉ t.after := by
    have hd := Table.nodup_all
    rw [← hall, List.nodup_append, List.nodup_cons] at hd
    exact hd.2.1.1
  have ha := alignUp_four_mod cursor
  have hb := h.extent_mod t.before
  -- The tables in front leave the cursor aligned, so that the table begins where they stop.
  have hcur := foldl_place (h := h) t.before (s := (.fill 0, alignUp cursor 4)) ha
  rw [placeTables_alignUp, placeTables_eq_foldl, ← hall, List.foldl_append, List.foldl_cons,
    foldl_place_get_of_notMem ht, place, PerTable.get_set, if_pos rfl, hcur,
    alignUp_four_of_mod (by simp only; omega)]

/-! ## The closed form of the layout -/

/-- Where the string bytes stop. -/
def stringsStop (h : Header) : Nat :=
  headerSize + h.instructions.toNat * 4 + h.strings.toNat

@[simp] theorem offsets_instructions (h : Header) : h.offsets.instructions = headerSize := rfl

@[simp] theorem offsets_strings (h : Header) :
    h.offsets.strings = headerSize + h.instructions.toNat * 4 := rfl

theorem offsets_strings_add (h : Header) : h.offsets.strings + h.strings.toNat = h.stringsStop :=
  rfl

/-- A table begins behind the string bytes and the tables before it. -/
theorem offsets_get (h : Header) (t : Table) :
    h.offsets.tables.get t = alignUp h.stringsStop 4 + h.extent t.before :=
  h.placeTables_get h.stringsStop t

/-- The block of value parts begins behind all tables. -/
theorem offsets_parts (h : Header) :
    h.offsets.parts = alignUp h.stringsStop 4 + h.extent Table.all :=
  h.placeTables_snd h.stringsStop

theorem offsets_stop (h : Header) : h.offsets.stop = h.offsets.parts + h.parts.toNat := rfl

end Header

/-! ## Arithmetic of 64 bits -/

section Machine

/-- The sum of two words, unless it wraps. -/
def add64? (a b : UInt64) : Option UInt64 :=
  if a.toNat + b.toNat < UInt64.size then some (a + b) else none

/-- The difference of two words, unless it wraps. -/
def sub64? (a b : UInt64) : Option UInt64 :=
  if b.toNat ≤ a.toNat then some (a - b) else none

/-- The product of two words, unless it wraps. -/
def mul64? (a b : UInt64) : Option UInt64 :=
  if a.toNat * b.toNat < UInt64.size then some (a * b) else none

/-- Aligning a word: `align` is added and one taken off, then the low bits are cleared. -/
def alignUp64? (value align : UInt64) : Option UInt64 := do
  let raised ← sub64? (← add64? value align) 1
  let low ← sub64? align 1
  pure (raised &&& ~~~low)

theorem add64?_eq_some {a b : UInt64} (h : a.toNat + b.toNat < UInt64.size) :
    ∃ c, add64? a b = some c ∧ c.toNat = a.toNat + b.toNat :=
  ⟨a + b, if_pos h, by rw [UInt64.toNat_add, Nat.mod_eq_of_lt h]⟩

theorem mul64?_eq_some {a b : UInt64} (h : a.toNat * b.toNat < UInt64.size) :
    ∃ c, mul64? a b = some c ∧ c.toNat = a.toNat * b.toNat :=
  ⟨a * b, if_pos h, by rw [UInt64.toNat_mul, Nat.mod_eq_of_lt h]⟩

theorem sub64?_eq_some {a b : UInt64} (h : b.toNat ≤ a.toNat) :
    ∃ c, sub64? a b = some c ∧ c.toNat = a.toNat - b.toNat :=
  ⟨a - b, if_pos h, UInt64.toNat_sub_of_le _ _ (UInt64.le_iff_toNat_le.mpr h)⟩

/-- Clearing the two low bits of a word rounds down to a multiple of four. -/
theorem toNat_and_not_three (a : UInt64) : (a &&& ~~~(3 : UInt64)).toNat = a.toNat / 4 * 4 := by
  have hmask : (~~~(3 : UInt64)).toNat = (2 ^ 62 - 1) <<< 2 := by decide
  have hshift : a.toNat / 4 * 4 = (a.toNat >>> 2) <<< 2 := by
    rw [Nat.shiftLeft_eq, Nat.shiftRight_eq_div_pow]
  have hlt : a.toNat / 4 < 2 ^ 62 := by
    have := a.toNat_lt
    omega
  rw [UInt64.toNat_and, hmask, hshift]
  -- Bit by bit: the two low ones are cleared on both sides, the others are kept.
  apply Nat.eq_of_testBit_eq
  intro i
  rw [Nat.testBit_and, Nat.testBit_shiftLeft, Nat.testBit_shiftLeft, Nat.testBit_shiftRight,
    Nat.testBit_two_pow_sub_one]
  by_cases hi : 2 ≤ i
  · have hadd : 2 + (i - 2) = i := by omega
    rw [hadd]
    by_cases hu : i - 2 < 62
    · simp [hi, hu]
    · have hz : a.toNat.testBit i = false := by
        rw [← hadd, Nat.add_comm, ← Nat.testBit_div_two_pow]
        refine Nat.testBit_lt_two_pow (Nat.lt_of_lt_of_le hlt ?_)
        exact Nat.pow_le_pow_right (by decide) (by omega)
      simp [hz]
  · simp [hi]

theorem alignUp64?_four {a : UInt64} (h : a.toNat + 4 < UInt64.size) :
    ∃ c, alignUp64? a 4 = some c ∧ c.toNat = alignUp a.toNat 4 := by
  obtain ⟨sum, hsum, hs⟩ := add64?_eq_some (a := a) (b := 4) h
  have h4 : (4 : UInt64).toNat = 4 := rfl
  have h1 : (1 : UInt64).toNat = 1 := rfl
  obtain ⟨raised, hraised, hr⟩ := sub64?_eq_some (a := sum) (b := 1) (by omega)
  have hlow : sub64? 4 1 = some 3 := rfl
  refine ⟨raised &&& ~~~3, ?_, ?_⟩
  · simp only [alignUp64?, hsum, hraised, hlow, Option.bind_eq_bind, Option.bind_some,
      Option.pure_def]
  · rw [toNat_and_not_three, alignUp_four]
    omega

namespace Header

/-- Places one more table behind those placed so far, in words. -/
def place64? (h : Header) (s : PerTable Nat × UInt64) (t : Table) :
    Option (PerTable Nat × UInt64) := do
  let start ← alignUp64? s.2 4
  let size ← mul64? (h.tables.get t).toUInt64 (.ofNat t.entrySize)
  let next ← add64? start size
  pure (s.1.set t start.toNat, next)

/-- The layout of a header with every sum, difference and product in words of 64 bits, unless one
of them wraps. -/
def machineOffsets? (h : Header) : Option Offsets := do
  let code ← mul64? h.instructions.toUInt64 4
  let strings ← add64? (.ofNat headerSize) code
  let cursor ← add64? strings h.strings.toUInt64
  let (tables, parts) ← Table.all.foldlM h.place64? (.fill 0, cursor)
  let stop ← add64? parts h.parts.toUInt64
  pure
    { instructions := headerSize
      strings := strings.toNat
      tables
      parts := parts.toNat
      stop := stop.toNat }

/-- More bytes than a table can take up, the gap in front of it included. -/
def tableRoom : Nat := 274877906944

/-- A table with its gap stays below 2³⁸ bytes. -/
theorem tableBytes_lt (h : Header) (t : Table) : h.tableBytes t + 4 < tableRoom := by
  have hc := (h.tables.get t).toNat_lt
  have he : t.entrySize ≤ 16 := by cases t <;> decide
  have hle : h.tableBytes t ≤ (h.tables.get t).toNat * 16 := Nat.mul_le_mul_left _ he
  rw [tableRoom]
  omega

/-- One table is placed without a wrap. -/
theorem place64?_eq_some {h : Header} {s : PerTable Nat × UInt64} {t : Table}
    (hs : s.2.toNat + tableRoom < UInt64.size) :
    ∃ next, h.place64? s t = some ((h.place (s.1, s.2.toNat) t).1, next) ∧
      next.toNat = (h.place (s.1, s.2.toNat) t).2 := by
  have hb := h.tableBytes_lt t
  have ha := alignUp_four s.2.toNat
  obtain ⟨start, hstart, hst⟩ := alignUp64?_four (a := s.2) (by omega)
  have hentry : (UInt64.ofNat t.entrySize).toNat = t.entrySize := by cases t <;> rfl
  have hprod : (h.tables.get t).toUInt64.toNat * (UInt64.ofNat t.entrySize).toNat
      = h.tableBytes t := by
    rw [hentry, UInt32.toNat_toUInt64, tableBytes]
  obtain ⟨size, hsize, hsz⟩ := mul64?_eq_some (a := (h.tables.get t).toUInt64)
    (b := .ofNat t.entrySize) (by rw [hprod]; omega)
  obtain ⟨next, hnext, hn⟩ := add64?_eq_some (a := start) (b := size)
    (by rw [hst, hsz, hprod]; omega)
  refine ⟨next, ?_, by rw [hn, hst, hsz, hprod, place]⟩
  simp only [place64?, hstart, hsize, hnext, Option.bind_eq_bind, Option.bind_some,
    Option.pure_def, place, hst]

/-- Several tables are placed without a wrap. -/
theorem foldlM_place64? {h : Header} (ts : List Table) {s : PerTable Nat × UInt64}
    (hs : s.2.toNat + tableRoom * ts.length < UInt64.size) :
    ∃ next, ts.foldlM h.place64? s = some ((ts.foldl h.place (s.1, s.2.toNat)).1, next) ∧
      next.toNat = (ts.foldl h.place (s.1, s.2.toNat)).2 := by
  -- Each table uses up one share of the room that is left below 64 bits.
  induction ts generalizing s with
  | nil => exact ⟨s.2, rfl, rfl⟩
  | cons t ts ih =>
    rw [List.length_cons, Nat.mul_succ] at hs
    obtain ⟨next, hnext, hn⟩ := place64?_eq_some (h := h) (s := s) (t := t) (by omega)
    have hb := h.tableBytes_lt t
    have hle : next.toNat ≤ s.2.toNat + 3 + h.tableBytes t := by
      rw [hn, place, alignUp_four]
      omega
    obtain ⟨last, hlast, hl⟩ := ih (s := ((h.place (s.1, s.2.toNat) t).1, next))
      (by simp only; omega)
    simp only [hn] at hlast hl
    refine ⟨last, ?_, hl⟩
    rw [List.foldlM_cons, hnext, Option.bind_eq_bind, Option.bind_some, hlast, List.foldl_cons]

theorem extent_le (h : Header) (ts : List Table) : h.extent ts ≤ tableRoom * ts.length := by
  induction ts with
  | nil => exact Nat.zero_le _
  | cons t ts ih =>
    have := h.tableBytes_lt t
    rw [extent_cons, List.length_cons, Nat.mul_succ]
    omega

/-- The string bytes stop before 2³⁵. -/
theorem stringsStop_lt (h : Header) : h.stringsStop < 34359738368 := by
  have hi := h.instructions.toNat_lt
  have hs := h.strings.toNat_lt
  rw [stringsStop, headerSize]
  omega

/-- **No sum and no product of the layout needs more than 64 bits**, whatever the counts are. -/
theorem machineOffsets?_eq (h : Header) : h.machineOffsets? = some h.offsets := by
  have hlt := h.stringsStop_lt
  have hsize : UInt64.size = 18446744073709551616 := rfl
  have hp := h.parts.toNat_lt
  have hdef : h.stringsStop = headerSize + h.instructions.toNat * 4 + h.strings.toNat := rfl
  obtain ⟨code, hcode, hc⟩ := mul64?_eq_some (a := h.instructions.toUInt64) (b := 4)
    (by change h.instructions.toUInt64.toNat * 4 < _; rw [UInt32.toNat_toUInt64]; omega)
  have hc' : code.toNat = h.instructions.toNat * 4 := by rw [hc, UInt32.toNat_toUInt64]; rfl
  obtain ⟨strings, hstrings, hst⟩ := add64?_eq_some (a := .ofNat headerSize) (b := code)
    (by change headerSize + code.toNat < _; omega)
  have hst' : strings.toNat = headerSize + h.instructions.toNat * 4 := by rw [hst, hc']; rfl
  obtain ⟨cursor, hcursor, hcu⟩ := add64?_eq_some (a := strings) (b := h.strings.toUInt64)
    (by rw [UInt32.toNat_toUInt64]; omega)
  have hcu' : cursor.toNat = h.stringsStop := by rw [hcu, hst', UInt32.toNat_toUInt64, hdef]
  have hall : tableRoom * Table.all.length = 2473901162496 := rfl
  obtain ⟨parts, hparts, hpa⟩ := foldlM_place64? (h := h) Table.all (s := (.fill 0, cursor))
    (by rw [hall]; simp only; omega)
  rw [hcu', ← placeTables_eq_foldl] at hparts hpa
  have hle := h.extent_le Table.all
  have hend := h.placeTables_snd h.stringsStop
  rw [alignUp_four] at hend
  obtain ⟨stop, hstop, hso⟩ := add64?_eq_some (a := parts) (b := h.parts.toUInt64)
    (by rw [UInt32.toNat_toUInt64]; omega)
  have hso' : stop.toNat = h.offsets.stop := by rw [hso, hpa, UInt32.toNat_toUInt64]; rfl
  simp only [machineOffsets?, hcode, hstrings, hcursor, hparts, hstop, Option.bind_eq_bind,
    Option.bind_some, Option.pure_def, hst', hpa, hso']
  rfl

end Header

end Machine

/-! ## The sections tile an image -/

namespace Header

/-- The places where the sections of a header begin, and where the last one stops. -/
def boundaries (h : Header) : List Nat :=
  h.offsets.instructions :: h.offsets.strings
    :: (h.offsets.tables.toList ++ [h.offsets.parts, h.offsets.stop])

/-- The sections that a header describes fill a byte string of a size, one behind the other. -/
structure Tiles (h : Header) (size : Nat) : Prop where
  /-- The instruction words stand behind the header. -/
  start : h.offsets.instructions = headerSize
  /-- No section begins before the one in front of it. -/
  sorted : h.boundaries.Pairwise (· ≤ ·)
  /-- The last section stops where the bytes stop. -/
  stop : h.offsets.stop = size
  /-- The string bytes begin where the instruction words stop. -/
  code : h.offsets.strings = h.offsets.instructions + 4 * h.instructions.toNat
  /-- Tables begin at multiples of four. -/
  aligned : ∀ t, h.offsets.tables.get t % 4 = 0
  /-- Up to three bytes lie between the string bytes and the first table. -/
  padding : h.offsets.strings + h.strings.toNat ≤ h.offsets.tables.get .tagOpen ∧
    h.offsets.tables.get .tagOpen ≤ h.offsets.strings + h.strings.toNat + 3
  /-- A table begins where the one in front of it stops. -/
  adjacent : ∀ pre t u post, Table.all = pre ++ t :: u :: post →
    h.offsets.tables.get u = h.offsets.tables.get t + h.tableBytes t
  /-- The value parts begin where the last table stops. -/
  last : h.offsets.parts = h.offsets.tables.get .valueParts + h.tableBytes .valueParts
  /-- The value parts are all that is left. -/
  parts : h.offsets.stop = h.offsets.parts + h.parts.toNat
  /-- Every table lies inside, and so does every reference of every entry of it. -/
  slots : ∀ t, h.offsets.tables.get t + h.tableBytes t ≤ size ∧
    ∀ index slot, index < (h.tables.get t).toNat → slot < t.arity →
      index * t.entrySize + slot * 8 + 8 ≤ h.tableBytes t

theorem offsets_get_add_le (h : Header) (t : Table) :
    h.offsets.tables.get t + h.tableBytes t ≤ h.offsets.parts := by
  rw [offsets_get, offsets_parts, ← t.before_append_after, extent_append, extent_cons]
  omega

theorem stringsStop_le_offsets_get (h : Header) (t : Table) :
    h.stringsStop ≤ h.offsets.tables.get t := by
  rw [offsets_get, alignUp_four]
  omega

theorem extent_le_of_isPrefix (h : Header) {l m : List Table} (hp : l <+: m) :
    h.extent l ≤ h.extent m := by
  obtain ⟨w, rfl⟩ := hp
  rw [extent_append]
  exact Nat.le_add_right _ _

/-- Tables stand in their order. -/
theorem pairwise_offsets_tables (h : Header) : h.offsets.tables.toList.Pairwise (· ≤ ·) := by
  have hp : Table.all.Pairwise fun t u => t.before <+: u.before := by decide
  rw [PerTable.toList, List.pairwise_map]
  refine hp.imp fun {t u} htu => ?_
  have := h.extent_le_of_isPrefix htu
  rw [offsets_get, offsets_get]
  omega

theorem mem_offsets_tables {h : Header} {n : Nat} (hn : n ∈ h.offsets.tables.toList) :
    h.stringsStop ≤ n ∧ n ≤ h.offsets.parts := by
  obtain ⟨t, -, rfl⟩ := List.mem_map.mp hn
  exact ⟨h.stringsStop_le_offsets_get t,
    Nat.le_trans (Nat.le_add_right _ _) (h.offsets_get_add_le t)⟩

/-- The sections of an image stand in their order. -/
theorem pairwise_boundaries (h : Header) : h.boundaries.Pairwise (· ≤ ·) := by
  have hstrings : h.offsets.strings ≤ h.stringsStop := Nat.le_add_right _ _
  have hparts : h.stringsStop ≤ h.offsets.parts := by
    have := h.stringsStop_le_offsets_get .tagOpen
    have := h.offsets_get_add_le .tagOpen
    omega
  have hstop : h.offsets.parts ≤ h.offsets.stop := Nat.le_add_right _ _
  have hcode : h.offsets.instructions ≤ h.offsets.strings := Nat.le_add_right _ _
  -- All that stands behind the string bytes begins where they stop, or later.
  have hge : ∀ n ∈ h.offsets.tables.toList ++ [h.offsets.parts, h.offsets.stop],
      h.stringsStop ≤ n := by
    intro n hn
    rcases List.mem_append.mp hn with hn | hn
    · exact (mem_offsets_tables hn).1
    · simp only [List.mem_cons, List.not_mem_nil, or_false] at hn
      omega
  rw [boundaries, List.pairwise_cons, List.pairwise_cons, List.pairwise_append]
  refine ⟨?_, fun n hn => Nat.le_trans hstrings (hge n hn), h.pairwise_offsets_tables, ?_, ?_⟩
  · intro n hn
    rcases List.mem_cons.mp hn with rfl | hn
    · exact hcode
    · exact Nat.le_trans hcode (Nat.le_trans hstrings (hge n hn))
  · simpa using hstop
  · intro m hm n hn
    have := (mem_offsets_tables hm).2
    simp only [List.mem_cons, List.not_mem_nil, or_false] at hn
    omega

theorem offsets_get_succ (h : Header) {pre post : List Table} {t u : Table}
    (hs : Table.all = pre ++ t :: u :: post) :
    h.offsets.tables.get u = h.offsets.tables.get t + h.tableBytes t := by
  have ht := Table.eq_before_of_split hs
  have hu : pre ++ [t] = u.before :=
    Table.eq_before_of_split (show Table.all = pre ++ [t] ++ u :: post by simpa using hs)
  rw [offsets_get, offsets_get, ← hu, ← ht, extent_append, extent_cons, extent_nil]
  omega

theorem slot_le (h : Header) {t : Table} {index slot : Nat} (hi : index < (h.tables.get t).toNat)
    (hs : slot < t.arity) : index * t.entrySize + slot * 8 + 8 ≤ h.tableBytes t := by
  have hrow : slot * 8 + 8 ≤ t.entrySize := by
    rw [Table.entrySize]
    omega
  have hmul : index * t.entrySize + t.entrySize ≤ h.tableBytes t := by
    rw [← Nat.succ_mul, tableBytes]
    exact Nat.mul_le_mul_right _ hi
  omega

/-- **The sections of a header fill the size that its counts ask for.** -/
theorem tiles (h : Header) : h.Tiles h.offsets.stop where
  start := rfl
  sorted := h.pairwise_boundaries
  stop := rfl
  code := by
    rw [offsets_strings, offsets_instructions]
    omega
  aligned t := by
    have := alignUp_four_mod h.stringsStop
    have := h.extent_mod t.before
    rw [offsets_get]
    omega
  padding := by
    have hb : h.extent Table.tagOpen.before = 0 := rfl
    rw [offsets_strings_add, offsets_get, alignUp_four, hb]
    omega
  adjacent _ _ _ _ hs := h.offsets_get_succ hs
  last := by
    have hall : Table.all = Table.valueParts.before ++ [.valueParts] := rfl
    rw [offsets_parts, offsets_get, hall, extent_append, extent_cons, extent_nil]
    omega
  parts := rfl
  slots t := ⟨Nat.le_trans (h.offsets_get_add_le t) (Nat.le_add_right _ _),
    fun _ _ hi hs => h.slot_le hi hs⟩

end Header

/-! ## Accepted byte strings -/

namespace Image

/-- The sections of an image have the sizes that a header gives, so that none was cut short. An
entry of a table is found exactly if its index is below the count of the table. -/
structure Sized (i : Image) (h : Header) : Prop where
  words : i.words.length = h.instructions.toNat
  strings : i.strings.length = h.strings.toNat
  tables : ∀ t, (i.tables.get t).size = (h.tables.get t).toNat * t.arity
  parts : i.parts.length = h.parts.toNat
  entry : ∀ t index, (i.entryAt? t index).isSome ↔ index < (h.tables.get t).toNat
  pair : ∀ t index, (i.pair? t index).isSome ↔ t.arity = 2 ∧ index < (h.tables.get t).toNat

/-- The image of a byte string whose header is `h`. -/
def ofSections (h : Header) (bytes : List UInt8) : Image where
  words := Wire.words (span bytes h.offsets.instructions h.offsets.strings)
  strings := span bytes h.offsets.strings (h.offsets.strings + h.strings.toNat)
  tables := .ofFn fun t =>
    (stringRefs (span bytes (h.offsets.tables.get t)
      (h.offsets.tables.get t + h.tableBytes t))).toArray
  parts := span bytes h.offsets.parts h.offsets.stop

/-- A byte string is accepted if its size is the one that its first twelve words ask for. -/
theorem load_eq_ok_iff {bytes : List UInt8} {i : Image} :
    load bytes = .ok i ↔ ∃ h : Header, Wire.words (bytes.take headerSize) = h.fields ∧
      h.offsets.stop = bytes.length ∧ i = ofSections h bytes := by
  unfold load
  cases hh : Header.ofBytes? bytes with
  | none =>
    simp only [reduceCtorEq, false_iff]
    rintro ⟨h, hf, -, -⟩
    rw [Header.ofBytes?_eq_some_iff.mpr hf] at hh
    cases hh
  | some h =>
    have hf := Header.ofBytes?_eq_some_iff.mp hh
    by_cases hs : h.offsets.stop = bytes.length
    · simp only [if_pos hs, Except.ok.injEq]
      constructor
      · rintro rfl
        exact ⟨h, hf, hs, rfl⟩
      · rintro ⟨h', hf', -, rfl⟩
        obtain rfl : h = h' := by
          have := (Header.ofBytes?_eq_some_iff.mpr hf').symm.trans hh
          exact (Option.some.inj this).symm
        rfl
    · simp only [if_neg hs, reduceCtorEq, false_iff]
      rintro ⟨h', hf', hs', -⟩
      have := (Header.ofBytes?_eq_some_iff.mpr hf').symm.trans hh
      exact hs (Option.some.inj this ▸ hs')

/-- A byte string is accepted if it is long enough for a header, and as long as that asks for. -/
theorem exists_load_iff {bytes : List UInt8} :
    (∃ i, load bytes = .ok i) ↔ headerSize ≤ bytes.length ∧
      ∃ h : Header, Wire.words (bytes.take headerSize) = h.fields ∧
        bytes.length = h.offsets.stop := by
  constructor
  · rintro ⟨i, hi⟩
    obtain ⟨h, hf, hs, -⟩ := load_eq_ok_iff.mp hi
    refine ⟨(Header.length_words_take bytes).mp ?_, h, hf, hs.symm⟩
    rw [hf, Header.length_fields]
  · rintro ⟨-, h, hf, hs⟩
    exact ⟨ofSections h bytes, load_eq_ok_iff.mpr ⟨h, hf, hs.symm, rfl⟩⟩

theorem entryAt?_isSome_iff {i : Image} {t : Table} {n : Nat}
    (hn : (i.tables.get t).size = n * t.arity) (index : Nat) :
    (i.entryAt? t index).isSome ↔ index < n := by
  rw [entryAt?, isSome_getElem?, hn]
  exact Nat.mul_lt_mul_right t.arity_pos

theorem pair?_isSome_iff {i : Image} {t : Table} {n : Nat}
    (hn : (i.tables.get t).size = n * t.arity) (index : Nat) :
    (i.pair? t index).isSome ↔ t.arity = 2 ∧ index < n := by
  unfold pair?
  by_cases ht : t.arity = 2
  · rw [ht] at hn
    rw [if_pos ht]
    simp only [ht, true_and]
    by_cases hi : index < n
    · have ha : index * 2 < (i.tables.get t).size := by omega
      have hb : index * 2 + 1 < (i.tables.get t).size := by omega
      simp [ha, hb, hi]
    · have ha : (i.tables.get t).size ≤ index * 2 := by omega
      simp [ha, hi]
  · simp [ht]

/-- The sections of an accepted byte string have the sizes that its header gives. -/
theorem sized_ofSections {h : Header} {bytes : List UInt8} (hs : h.offsets.stop = bytes.length) :
    (ofSections h bytes).Sized h := by
  have hparts := h.offsets_stop
  have hget := h.offsets_get_add_le
  have hfirst := h.stringsStop_le_offsets_get .tagOpen
  have hlast := h.offsets_get_add_le .tagOpen
  have hadd := h.offsets_strings_add
  have htables : ∀ t, ((ofSections h bytes).tables.get t).size
      = (h.tables.get t).toNat * t.arity := by
    intro t
    have hle := hget t
    have hb : h.tableBytes t = (h.tables.get t).toNat * t.arity * 8 := by
      rw [Header.tableBytes, Table.entrySize, Nat.mul_assoc]
    simp only [ofSections, PerTable.get_ofFn, List.size_toArray, length_stringRefs]
    rw [length_span (by omega)]
    omega
  refine
    { words := ?_
      strings := ?_
      tables := htables
      parts := ?_
      entry := fun t => entryAt?_isSome_iff (htables t)
      pair := fun t => pair?_isSome_iff (htables t) }
  · have hcode : h.offsets.strings = headerSize + h.instructions.toNat * 4 := rfl
    simp only [ofSections, length_words]
    rw [length_span (by omega), hcode, Header.offsets_instructions]
    omega
  · simp only [ofSections]
    rw [length_span (by omega)]
    omega
  · simp only [ofSections]
    rw [length_span (by omega)]
    omega

/-- An accepted byte string is not a proper part of another one. -/
theorem eq_nil_of_load_append {bytes more : List UInt8} {i j : Image}
    (hi : load bytes = .ok i) (hj : load (bytes ++ more) = .ok j) : more = [] := by
  obtain ⟨h, hf, hs, -⟩ := load_eq_ok_iff.mp hi
  obtain ⟨h', hf', hs', -⟩ := load_eq_ok_iff.mp hj
  -- The longer one has the same header, which asks for one size only.
  have hlen : headerSize ≤ bytes.length := (exists_load_iff.mp ⟨i, hi⟩).1
  rw [List.take_append_of_le_length hlen, hf] at hf'
  obtain rfl : h = h' := by
    have := congrArg Header.ofFields? hf'
    rw [Header.ofFields?_fields, Header.ofFields?_fields] at this
    exact Option.some.inj this
  rw [List.length_append] at hs'
  exact List.length_eq_zero_iff.mp (by omega)

/-- **Hostile byte strings cannot break the layout.** A byte string is accepted exactly if it is
long enough for a header and as long as its first twelve words ask for. The arithmetic of the
layout fits 64 bits for all counts. The sections of an accepted byte string tile it, and reading
them cuts none of them short. No accepted byte string goes on with more bytes to another one. -/
theorem load_layout (bytes : List UInt8) :
    ((∃ i, load bytes = .ok i) ↔ headerSize ≤ bytes.length ∧
      ∃ h : Header, Wire.words (bytes.take headerSize) = h.fields ∧
        bytes.length = h.offsets.stop) ∧
    (∀ h : Header, h.machineOffsets? = some h.offsets) ∧
    (∀ i, load bytes = .ok i → ∃ h : Header, Wire.words (bytes.take headerSize) = h.fields ∧
      h.Tiles bytes.length ∧ i.Sized h) ∧
    ∀ more i j, load bytes = .ok i → load (bytes ++ more) = .ok j → more = [] := by
  refine ⟨exists_load_iff, Header.machineOffsets?_eq, ?_, ?_⟩
  · intro i hi
    obtain ⟨h, hf, hs, rfl⟩ := load_eq_ok_iff.mp hi
    exact ⟨h, hf, hs ▸ h.tiles, sized_ofSections hs⟩
  · intro more i j hi hj
    exact eq_nil_of_load_append hi hj

end Image

end Stencil.Wire
