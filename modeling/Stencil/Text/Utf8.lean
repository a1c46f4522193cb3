/-!
# UTF-8

Offsets in a template are counted in bytes of its UTF-8 form, and images hold strings in that
form. Strict reading is the inverse of writing. Lossy reading, for showing bytes that may be
anything, puts one replacement character for each maximal part of a character that is cut short.

## Main definitions

* `size`: the number of bytes of a list of characters
* `cut`: a list of characters, cut behind some of its bytes
* `encode`, `decode?`: strings as bytes
* `decodeLossy`: bytes as a string, whatever they are

## Main results

* `decode?_encode`, `eq_encode_of_decode?`: strict reading accepts exactly what is written
-/

namespace Stencil.Text.Utf8

/-- The number of bytes of a list of characters. -/
def size (s : List Char) : Nat :=
  s.foldr (fun c n => c.utf8Size + n) 0

@[simp] theorem size_nil : size [] = 0 := rfl

@[simp] theorem size_cons (c : Char) (s : List Char) : size (c :: s) = c.utf8Size + size s := rfl

@[simp] theorem size_append (s t : List Char) : size (s ++ t) = size s + size t := by
  induction s with
  | nil => simp
  | cons c s ih => simp [ih, Nat.add_assoc]

theorem size_pos {s : List Char} (h : s ≠ []) : 0 < size s := by
  cases s with
  | nil => exact absurd rfl h
  | cons c s => simp only [size_cons]; have := c.utf8Size_pos; omega

/-- Cuts a text behind its first `n` bytes, or behind the character that they end in. -/
def cut : Nat → List Char → List Char × List Char
  | _, [] => ([], [])
  | n, c :: rest =>
    if n = 0 then ([], c :: rest)
    else
      let more := cut (n - c.utf8Size) rest
      (c :: more.1, more.2)

@[simp] theorem cut_zero (s : List Char) : cut 0 s = ([], s) := by
  cases s <;> rfl

/-- A cut between two characters. -/
@[simp] theorem cut_size_append (front back : List Char) :
    cut (size front) (front ++ back) = (front, back) := by
  induction front with
  | nil => rw [size_nil, List.nil_append, cut_zero]
  | cons c front ih =>
    have hpos : c.utf8Size + size front ≠ 0 := by have := c.utf8Size_pos; omega
    rw [size_cons, List.cons_append, cut, if_neg hpos, Nat.add_sub_cancel_left, ih]

/-- The bytes of a string. -/
def encode (s : String) : List UInt8 :=
  s.toByteArray.data.toList

/-- The string with the given bytes, if they are well formed. -/
def decode? (bytes : List UInt8) : Option String :=
  String.fromUTF8? ⟨bytes.toArray⟩

@[simp] theorem length_encode (s : String) : (encode s).length = s.utf8ByteSize := rfl

@[simp] theorem decode?_encode (s : String) : decode? (encode s) = some s := by
  have h : (⟨(encode s).toArray⟩ : ByteArray) = s.toByteArray := by simp [encode]
  simp [decode?, h, String.fromUTF8?, s.isValidUTF8, String.fromUTF8]

theorem eq_encode_of_decode? {bytes : List UInt8} {s : String} (h : decode? bytes = some s) :
    bytes = encode s := by
  simp only [decode?, String.fromUTF8?] at h
  split at h
  · cases h
    simp [encode, String.fromUTF8]
  · cases h

/-- Strict reading accepts exactly what writing produces. -/
theorem decode?_eq_some_iff {bytes : List UInt8} {s : String} :
    decode? bytes = some s ↔ bytes = encode s :=
  ⟨eq_encode_of_decode?, fun h => h ▸ decode?_encode s⟩

/-! ## Lossy reading -/

/-- A character whose first bytes are read: how many bytes it still owes, the bounds of the next
one, and the bits so far. -/
structure Pending where
  owed : Nat
  low : Nat
  high : Nat
  bits : Nat

/-- The character that stands for bytes that form none. -/
def replacement : Char := '\ufffd'

/-- Reads a byte between two characters: what it adds to the text, and the character it begins. -/
def first (b : Nat) : List Char × Option Pending :=
  if b < 0x80 then ([Char.ofNat b], none)
  else if 0xC2 ≤ b && b ≤ 0xDF then ([], some ⟨1, 0x80, 0xBF, b - 0xC0⟩)
  else if b = 0xE0 then ([], some ⟨2, 0xA0, 0xBF, 0⟩)
  else if b = 0xED then ([], some ⟨2, 0x80, 0x9F, 0xD⟩)
  else if 0xE1 ≤ b && b ≤ 0xEF then ([], some ⟨2, 0x80, 0xBF, b - 0xE0⟩)
  else if b = 0xF0 then ([], some ⟨3, 0x90, 0xBF, 0⟩)
  else if 0xF1 ≤ b && b ≤ 0xF3 then ([], some ⟨3, 0x80, 0xBF, b - 0xF0⟩)
  else if b = 0xF4 then ([], some ⟨3, 0x80, 0x8F, 4⟩)
  else ([replacement], none)

/-- Reads one byte. A byte that does not continue the pending character ends it with a
replacement and begins anew. -/
def step : Option Pending → Nat → List Char × Option Pending
  | none, b => first b
  | some p, b =>
    if p.low ≤ b && b ≤ p.high then
      if p.owed ≤ 1 then ([Char.ofNat (p.bits * 64 + (b - 0x80))], none)
      else ([], some ⟨p.owed - 1, 0x80, 0xBF, p.bits * 64 + (b - 0x80)⟩)
    else (replacement :: (first b).1, (first b).2)

/-- The text of arbitrary bytes, with a replacement character for each maximal part of a
character that is cut short. -/
def decodeLossy (bytes : List UInt8) : String :=
  let (text, pending) := bytes.foldl
    (fun (text, pending) b =>
      let (more, pending) := step pending b.toNat
      (more.foldl String.push text, pending))
    (("" : String), (none : Option Pending))
  if pending.isSome then text.push replacement else text

end Stencil.Text.Utf8
