import Stencil.Text.Split

/-!
# Character references

Text and attribute values may write a character as `&name;`, `&#digits;` or `&#xdigits;`. A
reference that is none of these, or whose number has no room in a word, is left as it stands. The
number zero and numbers that are no character stand for the replacement character.

## Main definitions

* `named`: the six names
* `referent?`: the character that the body of a reference stands for
* `decode`: a text with its references replaced

## Main results

* `front?_length`: a reference is not empty, so decoding moves on
-/

namespace Stencil.Markup.Reference

/-- The names of references. -/
def named : List (List Char × Char) :=
  [(['a', 'm', 'p'], '&'), (['l', 't'], '<'), (['g', 't'], '>'), (['q', 'u', 'o', 't'], '"'),
    (['a', 'p', 'o', 's'], '\x27'), (['n', 'b', 's', 'p'], '\u00a0')]

/-- The value of a hexadecimal digit, which may be a capital. -/
def digit? (c : Char) : Option Nat :=
  if '0' ≤ c && c ≤ '9' then some (c.toNat - 48)
  else if 'a' ≤ c && c ≤ 'f' then some (c.toNat - 87)
  else if 'A' ≤ c && c ≤ 'F' then some (c.toNat - 55)
  else none

/-- The number that digits of a base write, the digits read so far being worth `acc`. -/
def numeral? (base : Nat) : Nat → List Char → Option Nat
  | acc, [] => some acc
  | acc, c :: rest =>
    match digit? c with
    | some d => if d < base then numeral? base (base * acc + d) rest else none
    | none => none

/-- The character with a number: the replacement character for zero and for numbers that are no
character. -/
def ofNumber (n : Nat) : Char :=
  if n ≠ 0 && n.isValidChar then Char.ofNat n else '\ufffd'

/-- The character that the digits of a numeric reference stand for. -/
def ofDigits? (base : Nat) (digits : List Char) : Option Char :=
  if digits.isEmpty then none
  else
    match numeral? base 0 digits with
    | some n => if n < UInt32.size then some (ofNumber n) else none
    | none => none

/-- The character that the body of a reference stands for. -/
def referent? : List Char → Option Char
  | '#' :: 'x' :: digits => ofDigits? 16 digits
  | '#' :: 'X' :: digits => ofDigits? 16 digits
  | '#' :: digits => ofDigits? 10 digits
  | body => named.lookup body

/-- The character of the reference whose ampersand stands just before a text, and what follows
the reference. -/
def front? (s : List Char) : Option (Char × List Char) :=
  match s.dropWhile (· ≠ ';') with
  | [] => none
  | _ :: after => (referent? (s.takeWhile (· ≠ ';'))).map (·, after)

theorem front?_length {s after : List Char} {c : Char} (h : front? s = some (c, after)) :
    after.length < s.length := by
  unfold front? at h
  split at h
  · cases h
  · rename_i d a ha
    obtain ⟨_, _, hc⟩ := Option.map_eq_some_iff.mp h
    simp only [Prod.mk.injEq] at hc
    have := (List.dropWhile_suffix (l := s) (· ≠ ';')).length_le
    rw [ha, List.length_cons, hc.2] at this
    exact this

/-- The characters of a text with its references replaced. -/
def decodeChars (s : List Char) : List Char :=
  match _h : s.dropWhile (· ≠ '&') with
  | [] => s
  | _ :: tail =>
    match _hf : front? tail with
    | some (c, after) => s.takeWhile (· ≠ '&') ++ c :: decodeChars after
    -- The ampersand stands for itself, but a reference may begin right behind it.
    | none => s.takeWhile (· ≠ '&') ++ '&' :: decodeChars tail
termination_by s.length
decreasing_by
  · have hs := (List.dropWhile_suffix (l := s) (· ≠ '&')).length_le
    rw [_h, List.length_cons] at hs
    have := front?_length _hf
    omega
  · have hs := (List.dropWhile_suffix (l := s) (· ≠ '&')).length_le
    rw [_h, List.length_cons] at hs
    omega

/-- A text with its references replaced. -/
def decode (s : String) : String :=
  String.ofList (decodeChars s.toList)

end Stencil.Markup.Reference
