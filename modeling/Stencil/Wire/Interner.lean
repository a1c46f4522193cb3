import Stencil.Text.Utf8
import Stencil.Wire.StringRef

/-!
# Interned strings

Every string of an image is stored once, in the order of first use. An interner is the list of the
distinct strings so far; the byte table and all references are read off it. Both laws that make
references meaningful are part of the type: no string occurs twice, and all offsets fit a word.

## Main definitions

* `Interner`, `Interner.intern`: the strings so far, and the reference of one more
* `Interner.get?`, `Interner.resolve?`: from a string to its reference, and back
* `Interner.bytes`, `Interner.entries`: the byte table, and each string with its reference
-/

namespace Stencil.Wire

open Stencil.Text

/-- The number of bytes of several strings together. -/
def stringBytes (strings : List String) : Nat :=
  strings.foldr (fun s n => s.utf8ByteSize + n) 0

@[simp] theorem stringBytes_nil : stringBytes [] = 0 := rfl

@[simp] theorem stringBytes_cons (s : String) (l : List String) :
    stringBytes (s :: l) = s.utf8ByteSize + stringBytes l := rfl

@[simp] theorem stringBytes_append (l m : List String) :
    stringBytes (l ++ m) = stringBytes l + stringBytes m := by
  induction l with
  | nil => simp
  | cons s l ih => simp [ih, Nat.add_assoc]

/-- The number of values of a word. Offsets and counts of an image stay below it. -/
def wordLimit : Nat := UInt32.size

/-- The distinct strings of an image, in the order of first use. -/
structure Interner where
  strings : List String := []
  nodup : strings.Nodup := by simp
  fits : stringBytes strings < wordLimit := by decide

namespace Interner

/-- The reference of `s` among `strings`, whose first byte stands at `offset`. -/
def locate (s : String) : List String → Nat → Option StringRef
  | [], _ => none
  | t :: rest, offset =>
    if t = s then some ⟨.ofNat offset, .ofNat t.utf8ByteSize⟩
    else locate s rest (offset + t.utf8ByteSize)

theorem locate_eq_none_iff {s : String} {l : List String} {offset : Nat} :
    locate s l offset = none ↔ s ∉ l := by
  induction l generalizing offset with
  | nil => simp [locate]
  | cons t rest ih =>
    by_cases h : t = s
    · simp [locate, h]
    · simp [locate, h, ih, Ne.symm h]

/-- The reference of a string, if it was interned. -/
def get? (i : Interner) (s : String) : Option StringRef :=
  locate s i.strings 0

theorem get?_eq_none_iff {i : Interner} {s : String} : i.get? s = none ↔ s ∉ i.strings :=
  locate_eq_none_iff

/-- The size of the byte table. -/
def byteSize (i : Interner) : Nat :=
  stringBytes i.strings

/-- The reference of a string, and the strings with it added if it is new. A string for which the
byte table has no room is refused with the size that the table would have. -/
def intern (i : Interner) (s : String) : Except Nat (StringRef × Interner) :=
  match h : i.get? s with
  | some r => .ok (r, i)
  | none =>
    if fits : i.byteSize + s.utf8ByteSize < wordLimit then
      .ok (⟨.ofNat i.byteSize, .ofNat s.utf8ByteSize⟩,
        { strings := i.strings ++ [s]
          nodup := by
            have := get?_eq_none_iff.mp h
            rw [List.nodup_append]
            exact ⟨i.nodup, by simp, by simp only [List.mem_singleton]; grind⟩
          fits := by simpa [byteSize] using fits })
    else .error (i.byteSize + s.utf8ByteSize)

/-- The byte table: the strings back to back. -/
def bytes (i : Interner) : List UInt8 :=
  i.strings.flatMap Utf8.encode

/-- The text that a reference names, if it lies inside the table and is well formed. -/
def resolve? (i : Interner) (r : StringRef) : Option String :=
  (r.slice? i.bytes).bind Utf8.decode?

/-- Each string with its reference, for strings whose first byte stands at `offset`. -/
def entriesFrom : Nat → List String → List (StringRef × String)
  | _, [] => []
  | offset, s :: rest =>
    (⟨.ofNat offset, .ofNat s.utf8ByteSize⟩, s) :: entriesFrom (offset + s.utf8ByteSize) rest

/-- Each string with its reference, in the order of first use. -/
def entries (i : Interner) : List (StringRef × String) :=
  entriesFrom 0 i.strings

end Interner

end Stencil.Wire
