import Mathlib.Data.List.Basic
import Stencil.Wire.Interner

/-!
# References of interned strings

A reference given out for a string stays good: strings are only added behind those that are there,
so that the reference of a string never changes, and the bytes it names are those of the string.

## Main results

* `StringRef.slice?_append_right`: more bytes behind a table change no slice of it
* `Interner.intern_eq_ok`: what interning a string does
* `Interner.intern_of_get?`, `Interner.intern_of_lt`, `Interner.intern_of_le`: a string that is
  there, a new one with room for it, and one without
* `Interner.get?_of_isPrefix`: a reference stays when strings are added
* `Interner.slice?_of_get?`: a reference names the bytes of its string
-/

namespace Stencil.Wire

open Stencil.Text

theorem toNat_ofNat_of_lt {n : Nat} (h : n < wordLimit) : (UInt32.ofNat n).toNat = n :=
  UInt32.toNat_ofNat_of_lt h

namespace StringRef

theorem slice?_eq_none_iff {r : StringRef} {table : List UInt8} :
    r.slice? table = none ↔ table.length < r.stop := by
  rw [slice?]
  split
  · rename_i h
    exact iff_of_false (by simp) (Nat.not_lt.mpr h)
  · rename_i h
    exact iff_of_true rfl (Nat.lt_of_not_le h)

/-- A reference that has a slice lies inside the table. -/
theorem stop_le_of_slice? {r : StringRef} {table data : List UInt8}
    (h : r.slice? table = some data) : r.stop ≤ table.length := by
  by_contra hlt
  rw [slice?_eq_none_iff.mpr (Nat.lt_of_not_le hlt)] at h
  cases h

/-- More bytes behind a table change no slice of it. -/
theorem slice?_append_right {r : StringRef} {table data : List UInt8}
    (h : r.slice? table = some data) (more : List UInt8) :
    r.slice? (table ++ more) = some data := by
  unfold slice? at h ⊢
  split at h
  · rename_i hle
    have hlen : r.offset.toNat + r.length.toNat ≤ table.length := hle
    rw [if_pos (by rw [List.length_append]; omega), ← h]
    rw [List.drop_append_of_le_length (by omega), List.take_append_of_le_length]
    rw [List.length_drop]
    omega
  · cases h

theorem slice?_of_isPrefix {r : StringRef} {table table' data : List UInt8}
    (h : r.slice? table = some data) (hp : table <+: table') : r.slice? table' = some data := by
  obtain ⟨more, rfl⟩ := hp
  exact slice?_append_right h more

/-- A reference to what stands behind `front` names it. -/
theorem slice?_mk {front data behind : List UInt8} {offset length : Nat}
    (ho : offset = front.length) (hl : length = data.length)
    (hfits : offset + length < wordLimit) :
    slice? ⟨.ofNat offset, .ofNat length⟩ (front ++ data ++ behind) = some data := by
  have h1 : (UInt32.ofNat offset).toNat = offset := toNat_ofNat_of_lt (by omega)
  have h2 : (UInt32.ofNat length).toNat = length := toNat_ofNat_of_lt (by omega)
  refine slice?_append_right ?_ behind
  rw [slice?, stop, h1, h2, if_pos (by rw [List.length_append]; omega), ho, hl, List.drop_left,
    List.take_length]

end StringRef

theorem length_flatMap_encode (l : List String) :
    (l.flatMap Utf8.encode).length = stringBytes l := by
  induction l with
  | nil => rfl
  | cons s l ih =>
    rw [List.flatMap_cons, List.length_append, Utf8.length_encode, ih, stringBytes_cons]

namespace Interner

theorem length_bytes (i : Interner) : i.bytes.length = i.byteSize :=
  length_flatMap_encode i.strings

/-- The reference of a string counts the bytes of the strings in front of its first place. -/
theorem locate_eq_some {s : String} {l : List String} {offset : Nat} {r : StringRef}
    (h : locate s l offset = some r) :
    ∃ pre post, l = pre ++ s :: post ∧
      r = ⟨.ofNat (offset + stringBytes pre), .ofNat s.utf8ByteSize⟩ := by
  induction l generalizing offset with
  | nil => cases h
  | cons t rest ih =>
    unfold locate at h
    split at h
    · rename_i hts
      subst hts
      cases h
      exact ⟨[], rest, rfl, rfl⟩
    · obtain ⟨pre, post, rfl, rfl⟩ := ih h
      exact ⟨t :: pre, post, rfl, by rw [stringBytes_cons, Nat.add_assoc]⟩

theorem locate_append {s : String} {l : List String} {offset : Nat} {r : StringRef}
    (h : locate s l offset = some r) (more : List String) :
    locate s (l ++ more) offset = some r := by
  induction l generalizing offset with
  | nil => cases h
  | cons t rest ih =>
    rw [List.cons_append]
    unfold locate at h ⊢
    split at h
    · rename_i hts
      rwa [if_pos hts]
    · rename_i hts
      rw [if_neg hts]
      exact ih h

/-- A string that is not there yet gets the place behind all others. -/
theorem locate_append_self {s : String} {l : List String} (hs : s ∉ l) (offset : Nat) :
    locate s (l ++ [s]) offset
      = some ⟨.ofNat (offset + stringBytes l), .ofNat s.utf8ByteSize⟩ := by
  induction l generalizing offset with
  | nil => simp [locate]
  | cons t rest ih =>
    rw [List.mem_cons, not_or] at hs
    rw [List.cons_append, locate, if_neg (Ne.symm hs.1), ih hs.2, stringBytes_cons,
      Nat.add_assoc]

/-- A reference stays when strings are added. -/
theorem get?_of_isPrefix {i j : Interner} (hp : i.strings <+: j.strings) {s : String}
    {r : StringRef} (h : i.get? s = some r) : j.get? s = some r := by
  obtain ⟨more, hm⟩ := hp
  rw [get?, ← hm]
  exact locate_append h more

theorem mem_strings_of_get? {i : Interner} {s : String} {r : StringRef} (h : i.get? s = some r) :
    s ∈ i.strings := by
  by_contra hs
  rw [get?_eq_none_iff.mpr hs] at h
  cases h

/-- What interning a string does: the string is added if it is new, and its reference returned. -/
theorem intern_eq_ok {i j : Interner} {s : String} {r : StringRef}
    (h : i.intern s = .ok (r, j)) :
    j.strings = (if s ∈ i.strings then i.strings else i.strings ++ [s]) ∧
      j.get? s = some r := by
  unfold intern at h
  split at h
  · rename_i r' hr
    obtain ⟨rfl, rfl⟩ : r' = r ∧ i = j := by simpa using h
    exact ⟨(if_pos (mem_strings_of_get? hr)).symm, hr⟩
  · rename_i hr
    have hmem := get?_eq_none_iff.mp hr
    split at h
    · simp only [Except.ok.injEq, Prod.mk.injEq] at h
      obtain ⟨rfl, rfl⟩ := h
      refine ⟨(if_neg hmem).symm, ?_⟩
      rw [get?, locate_append_self hmem, Nat.zero_add, byteSize]
    · cases h

/-- A string that is there already changes nothing. -/
theorem intern_of_get? {i : Interner} {s : String} {r : StringRef} (h : i.get? s = some r) :
    i.intern s = .ok (r, i) := by
  unfold intern
  split
  · rename_i r' hr
    rw [h] at hr
    cases hr
    rfl
  · rename_i hr
    rw [h] at hr
    cases hr

/-- A new string for which there is room is added at the end. -/
theorem intern_of_lt {i : Interner} {s : String} (h : i.get? s = none)
    (hfits : i.byteSize + s.utf8ByteSize < wordLimit) :
    ∃ j, i.intern s = .ok (⟨.ofNat i.byteSize, .ofNat s.utf8ByteSize⟩, j) ∧
      j.strings = i.strings ++ [s] := by
  unfold intern
  split
  · rename_i r hr
    rw [h] at hr
    cases hr
  · rw [dif_pos hfits]
    exact ⟨_, rfl, rfl⟩

/-- A new string for which there is no room is refused. -/
theorem intern_of_le {i : Interner} {s : String} (h : i.get? s = none)
    (hfull : wordLimit ≤ i.byteSize + s.utf8ByteSize) :
    i.intern s = .error (i.byteSize + s.utf8ByteSize) := by
  unfold intern
  split
  · rename_i r hr
    rw [h] at hr
    cases hr
  · exact dif_neg (Nat.not_lt.mpr hfull)

theorem isPrefix_of_intern {i j : Interner} {s : String} {r : StringRef}
    (h : i.intern s = .ok (r, j)) : i.strings <+: j.strings := by
  rw [(intern_eq_ok h).1]
  split
  · exact List.prefix_rfl
  · exact List.prefix_append _ _

/-- More strings have more bytes behind those that were there. -/
theorem bytes_isPrefix {i j : Interner} (hp : i.strings <+: j.strings) : i.bytes <+: j.bytes := by
  obtain ⟨more, hm⟩ := hp
  rw [bytes, bytes, ← hm, List.flatMap_append]
  exact List.prefix_append _ _

/-- **A reference names the bytes of its string.** -/
theorem slice?_of_get? {i : Interner} {s : String} {r : StringRef} (h : i.get? s = some r) :
    r.slice? i.bytes = some (Utf8.encode s) := by
  obtain ⟨pre, post, hs, rfl⟩ := locate_eq_some h
  -- The bytes of the strings in front are its offset, which the limit keeps within a word.
  have hfits := i.fits
  rw [hs, stringBytes_append, stringBytes_cons] at hfits
  rw [bytes, hs, List.flatMap_append, List.flatMap_cons, ← List.append_assoc]
  refine StringRef.slice?_mk ?_ (Utf8.length_encode s).symm (by omega)
  rw [length_flatMap_encode, Nat.zero_add]

end Interner

end Stencil.Wire
