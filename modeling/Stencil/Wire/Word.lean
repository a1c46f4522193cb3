/-!
# Words

Images are sequences of 32-bit words, least significant byte first, apart from the bytes of
strings. A byte string is a `List UInt8`.

## Main definitions

* `wordBytes`, `wordOf`: the four bytes of a word, and back
* `words`: the words of a byte string, a last incomplete one left out

## Main results

* `wordOf_wordBytes`, `wordBytes_wordOf`: the two are inverse
* `words_wordBytes_append`: a written word is read first
-/

namespace Stencil.Wire

/-- The four bytes of a word, least significant first. -/
def wordBytes (w : UInt32) : List UInt8 :=
  [.ofNat w.toNat, .ofNat (w.toNat / 256), .ofNat (w.toNat / 65536), .ofNat (w.toNat / 16777216)]

/-- The word with the given bytes, least significant first. -/
def wordOf (a b c d : UInt8) : UInt32 :=
  .ofNat (a.toNat + 256 * b.toNat + 65536 * c.toNat + 16777216 * d.toNat)

/-- The words of a byte string. Up to three bytes behind the last word are left out. -/
def words : List UInt8 → List UInt32
  | a :: b :: c :: d :: rest => wordOf a b c d :: words rest
  | _ => []

@[simp] theorem length_wordBytes (w : UInt32) : (wordBytes w).length = 4 := rfl

theorem wordOf_wordBytes (w : UInt32) :
    wordOf (.ofNat w.toNat) (.ofNat (w.toNat / 256)) (.ofNat (w.toNat / 65536))
      (.ofNat (w.toNat / 16777216)) = w := by
  apply UInt32.toNat_inj.mp
  have := w.toNat_lt
  simp only [wordOf, UInt8.toNat_ofNat', UInt32.toNat_ofNat']
  omega

theorem wordBytes_wordOf (a b c d : UInt8) : wordBytes (wordOf a b c d) = [a, b, c, d] := by
  have ha := a.toNat_lt
  have hb := b.toNat_lt
  have hc := c.toNat_lt
  have hd := d.toNat_lt
  simp only [wordBytes, wordOf, UInt32.toNat_ofNat', List.cons.injEq, and_true,
    ← UInt8.toNat_inj, UInt8.toNat_ofNat']
  omega

/-- A written word is read first. -/
@[simp] theorem words_wordBytes_append (w : UInt32) (rest : List UInt8) :
    words (wordBytes w ++ rest) = w :: words rest := by
  simp only [wordBytes, List.cons_append, List.nil_append, words, wordOf_wordBytes]

end Stencil.Wire
