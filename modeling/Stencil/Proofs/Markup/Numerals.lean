import Mathlib.Data.List.Forall2
import Mathlib.Data.Nat.Digits.Defs
import Mathlib.Tactic.IntervalCases
import Mathlib.Tactic.Tauto
import Stencil.Proofs.Markup.References

/-!
# Numeric references

The digits of a numeric reference denote a number, whatever zeros stand in front and whether
hexadecimal letters are capitals. As long as the number has room in a word, the reference depends on
it alone: it stands for the character of that number, or for the replacement character if there is
none. A number that has no room in a word is not read, and the reference stays as it is written.

## Main definitions

* `IsDigit`, `Denotes`: the value of a digit, and the number that digits denote
* `Radix`: what stands in front of the digits of a base
* `IsCharOf`: the character of a number
* `numericReference`: the reference that digits make

## Main results

* `numeral?_zero_iff`: digits are read as the number that they denote
* `ofDigits?_of_denotes`, `referent?_number`: what digits stand for
* `decode_numericReference`: **a numeric reference depends on its number alone**, up to the limit of
  a word
-/

namespace Stencil.Markup.Reference

/-- A digit of a base up to sixteen, and its value. A letter may be a capital. -/
def IsDigit (base : Nat) (c : Char) (d : Nat) : Prop :=
  d < base ∧ (c = d.digitChar ∨ c = d.digitChar.toUpper)

/-- The number that digits denote, of which the first has the highest worth. -/
def Denotes (base : Nat) (digits : List Char) (n : Nat) : Prop :=
  ∃ values, List.Forall₂ (IsDigit base) digits values ∧ n = Nat.ofDigits base values.reverse

/-- What stands between the number sign and the digits of a base. -/
inductive Radix : List Char → Nat → Prop
  | decimal : Radix [] 10
  | hexadecimal : Radix ['x'] 16
  | hexadecimalCapital : Radix ['X'] 16

/-- The character that a number stands for: the one with that scalar value, or the replacement
character for zero and for numbers that are no scalar values. -/
def IsCharOf (n : Nat) (c : Char) : Prop :=
  (n ≠ 0 ∧ c.toNat = n) ∨ ((n = 0 ∨ ¬ n.isValidChar) ∧ c = '\ufffd')

/-- The reference that digits make, with what stands in front of them. -/
def numericReference (marker digits : List Char) : String :=
  String.ofList ('&' :: '#' :: (marker ++ digits ++ [';']))

variable {base n : Nat} {c : Char} {digits marker : List Char}

theorem Radix.base_le (h : Radix marker base) : base ≤ 16 := by
  cases h <;> omega

/-! ## Digits and numerals -/

theorem toNat_digitChar {d : Nat} (h : d < 16) :
    d.digitChar.toNat = (if d < 10 then d + 48 else d + 87) ∧
      d.digitChar.toUpper.toNat = (if d < 10 then d + 48 else d + 55) := by
  interval_cases d <;> exact ⟨rfl, rfl⟩

/-- A digit is read as its value. -/
theorem digit?_eq_some_iff {d : Nat} : digit? c = some d ↔ IsDigit 16 c d := by
  -- Characters are compared by their numbers, where the three ranges are intervals.
  have hle : ∀ a b : Char, a ≤ b ↔ a.toNat ≤ b.toNat := fun a b => Char.le_def.trans .rfl
  have hdigits : '0'.toNat = 48 ∧ '9'.toNat = 57 := ⟨rfl, rfl⟩
  have hsmall : 'a'.toNat = 97 ∧ 'f'.toNat = 102 := ⟨rfl, rfl⟩
  have hcapital : 'A'.toNat = 65 ∧ 'F'.toNat = 70 := ⟨rfl, rfl⟩
  simp only [digit?, IsDigit, Bool.and_eq_true, decide_eq_true_eq, hle, hdigits, hsmall, hcapital,
    ← Char.toNat_inj]
  by_cases hd : d < 16
  · rw [(toNat_digitChar hd).1, (toNat_digitChar hd).2]
    split_ifs <;> simp <;> omega
  · split_ifs <;> simp <;> omega

theorem IsDigit.digit?_eq {d : Nat} (hd : IsDigit base c d) (hb : base ≤ 16) :
    digit? c = some d :=
  digit?_eq_some_iff.mpr ⟨hd.1.trans_le hb, hd.2⟩

/-- Digits are read one by one, the value so far being multiplied by the base. -/
theorem numeral?_eq_some_iff (hb : base ≤ 16) {acc : Nat} :
    numeral? base acc digits = some n ↔
      ∃ values, List.Forall₂ (IsDigit base) digits values ∧
        n = values.foldl (fun acc d => base * acc + d) acc := by
  induction digits generalizing acc with
  | nil => simp [numeral?, eq_comm]
  | cons c rest ih =>
    simp only [numeral?, List.forall₂_cons_left_iff]
    constructor
    · intro h
      split at h
      · rename_i d hd
        split at h
        · rename_i hlt
          obtain ⟨values, hvalues, rfl⟩ := ih.mp h
          have hdigit : IsDigit base c d := ⟨hlt, (digit?_eq_some_iff.mp hd).2⟩
          exact ⟨d :: values, ⟨d, values, hdigit, hvalues, rfl⟩, rfl⟩
        · cases h
      · cases h
    · rintro ⟨_, ⟨d, values, hdigit, hvalues, rfl⟩, rfl⟩
      simp only [hdigit.digit?_eq hb, if_pos hdigit.1]
      exact ih.mpr ⟨values, hvalues, rfl⟩

/-- **Digits are read as the number that they denote.** -/
theorem numeral?_zero_iff (hb : base ≤ 16) :
    numeral? base 0 digits = some n ↔ Denotes base digits n := by
  simp only [numeral?_eq_some_iff hb, Denotes, Nat.ofDigits_eq_foldr, List.foldr_reverse,
    Nat.cast_id, Nat.add_comm]

/-- A character that is no digit does not stand among digits. -/
theorem Denotes.notMem (hn : Denotes base digits n) (hb : base ≤ 16) {x : Char}
    (hx : digit? x = none) : x ∉ digits := by
  obtain ⟨values, hvalues, -⟩ := hn
  intro hmem
  induction hvalues with
  | nil => cases hmem
  | cons hd _ ih =>
    rcases List.mem_cons.mp hmem with rfl | hrest
    · rw [hd.digit?_eq hb] at hx
      cases hx
    · exact ih hrest

/-! ## The character of a number -/

theorem isCharOf_iff : IsCharOf n c ↔ c = ofNumber n := by
  rw [IsCharOf, ofNumber]
  by_cases h : n ≠ 0 ∧ n.isValidChar
  · rw [if_pos (by simpa using h)]
    constructor
    · rintro (⟨-, rfl⟩ | ⟨hn, -⟩)
      · exact (Char.ofNat_toNat c).symm
      · exact absurd h (by tauto)
    · rintro rfl
      exact .inl ⟨h.1, by rw [Char.ofNat, dif_pos h.2]; rfl⟩
  · rw [if_neg (by simpa using h)]
    constructor
    · rintro (⟨hn, rfl⟩ | ⟨-, rfl⟩)
      · exact absurd ⟨hn, c.valid⟩ h
      · rfl
    · rintro rfl
      exact .inr ⟨by tauto, rfl⟩

/-- What digits stand for, by the number that they denote. -/
theorem ofDigits?_of_denotes (hb : base ≤ 16) (hne : digits ≠ []) (hn : Denotes base digits n) :
    ofDigits? base digits = if n < UInt32.size then some (ofNumber n) else none := by
  have hempty : digits.isEmpty = false := by simpa using hne
  simp only [ofDigits?, hempty, (numeral?_zero_iff hb).mpr hn, Bool.false_eq_true, if_false]

/-- Whatever stands for a character by its digits denotes a number. -/
theorem exists_denotes_of_ofDigits? (hb : base ≤ 16) (h : ofDigits? base digits = some c) :
    digits ≠ [] ∧ ∃ n, Denotes base digits n ∧ n < UInt32.size ∧ c = ofNumber n := by
  rw [ofDigits?] at h
  split at h
  · cases h
  · rename_i hne
    split at h
    · rename_i n hn
      split at h
      · rename_i hlt
        cases h
        exact ⟨by simpa using hne, n, (numeral?_zero_iff hb).mp hn, hlt, rfl⟩
      · cases h
    · cases h

/-- The body of a numeric reference is read in the base that its marker says. -/
theorem referent?_number (hr : Radix marker base) (hn : Denotes base digits n) :
    referent? ('#' :: (marker ++ digits)) = ofDigits? base digits := by
  cases hr with
  | decimal =>
    -- Decimal digits do not begin with a letter, which would be taken for a marker.
    have hletter : ∀ x, digit? x = none → ∀ rest, digits ≠ x :: rest := by
      rintro x hx rest rfl
      exact hn.notMem (by omega) hx List.mem_cons_self
    exact referent?.eq_3 digits (hletter 'x' rfl) (hletter 'X' rfl)
  | hexadecimal => rfl
  | hexadecimalCapital => rfl

/-- A body with digits holds neither of the characters that begin and end references. -/
theorem notMem_number (hr : Radix marker base) (hn : Denotes base digits n) :
    ';' ∉ '#' :: (marker ++ digits) ∧ '&' ∉ '#' :: (marker ++ digits) := by
  have hsemicolon := hn.notMem hr.base_le (x := ';') rfl
  have hampersand := hn.notMem hr.base_le (x := '&') rfl
  cases hr <;> simp [hsemicolon, hampersand]

/-! ## Decoding -/

/-- A numeric reference at the front of a text. -/
theorem front?_number (hr : Radix marker base) (hne : digits ≠ []) (hn : Denotes base digits n)
    (after : List Char) :
    front? ('#' :: (marker ++ digits) ++ ';' :: after) =
      if n < UInt32.size then some (ofNumber n, after) else none := by
  rw [front?_append (notMem_number hr hn).1, referent?_number hr hn,
    ofDigits?_of_denotes hr.base_le hne hn]
  split <;> rfl

/-- **A numeric reference depends on its number alone.** If the number has room in a word, the
reference is decoded to the character of the number, or to the replacement character if there is
none. Otherwise it stays as it is written. -/
theorem decode_numericReference (hr : Radix marker base) (hne : digits ≠ [])
    (hn : Denotes base digits n) :
    (n < UInt32.size →
      ∃ c, IsCharOf n c ∧ decode (numericReference marker digits) = String.singleton c) ∧
    (UInt32.size ≤ n →
      decode (numericReference marker digits) = numericReference marker digits) := by
  have hfront := front?_number hr hne hn []
  have hchars : (numericReference marker digits).toList =
      '&' :: ('#' :: (marker ++ digits) ++ [';']) := by
    simp [numericReference]
  constructor
  · intro hlt
    rw [if_pos hlt] at hfront
    refine ⟨ofNumber n, isCharOf_iff.mpr rfl, ?_⟩
    rw [decode, hchars, decodeChars_ampersand hfront, decodeChars_nil]
    rfl
  · intro hle
    rw [if_neg (Nat.not_lt.mpr hle)] at hfront
    have hrest : '&' ∉ '#' :: (marker ++ digits) ++ [';'] := by
      have := (notMem_number hr hn).2
      simp_all
    rw [decode, hchars, decodeChars_ampersand_of_none hfront, decodeChars_of_notMem hrest, ← hchars,
      String.ofList_toList]

/-- Zeros in front and letters of both kinds: a euro sign. -/
theorem decode_numericReference_euro :
    Denotes 16 ['0', '0', '2', '0', 'a', 'C'] 0x20ac ∧
      decode (numericReference ['X'] ['0', '0', '2', '0', 'a', 'C']) = "€" := by
  have hn : Denotes 16 ['0', '0', '2', '0', 'a', 'C'] 0x20ac :=
    (numeral?_zero_iff (by omega)).mp rfl
  obtain ⟨c, hc, hdecode⟩ :=
    (decode_numericReference .hexadecimalCapital (by simp) hn).1 (by decide)
  rw [isCharOf_iff.mp hc] at hdecode
  exact ⟨hn, hdecode⟩

/-- A number that has no room in a word: the reference is kept, although the number is no scalar
value. -/
theorem decode_numericReference_overlong :
    ¬ ∀ marker base digits n, Radix marker base → digits ≠ [] → Denotes base digits n →
      ∃ c, IsCharOf n c ∧ decode (numericReference marker digits) = String.singleton c := by
  intro h
  have hn : Denotes 10 ['4', '2', '9', '4', '9', '6', '7', '2', '9', '6'] 4294967296 :=
    (numeral?_zero_iff (by omega)).mp rfl
  obtain ⟨c, -, hdecode⟩ := h [] 10 _ _ .decimal (by simp) hn
  have hkept : decode (numericReference [] ['4', '2', '9', '4', '9', '6', '7', '2', '9', '6']) =
      "&#4294967296;" := by decide +kernel
  have hlength := congrArg String.length (hkept.symm.trans hdecode)
  rw [String.length_singleton] at hlength
  revert hlength
  decide

end Stencil.Markup.Reference
