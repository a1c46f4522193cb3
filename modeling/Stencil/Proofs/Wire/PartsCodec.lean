import Stencil.Proofs.Wire.Parts
import Stencil.Proofs.Wire.PartsLayout

/-!
# One wire form for each entry of value parts

An entry is written behind whatever is there, field by field, and what is written does not depend on
what is there. Reading accepts no other bytes than those that writing produces: the count of an
entry has to fit its size, so that no byte is left over, and each kind of segment has one number.
Entries and the byte strings that are read correspond one to one, apart from entries whose segments
cannot be counted in a word.

## Main definitions

* `PartsEntry.write`: an entry written behind other bytes

## Main results

* `PartsEntry.write_eq`: writing adds the wire form
* `flatMap_wordBytes_words`: bytes are the words that they hold
* `PartsEntry.segmentsOfWords_eq_ok`: the segments that are read are those that were written
* `PartsEntry.bytes_of_ofBytes`: whatever is read is the wire form of the entry
* `PartsEntry.write_iff_ofBytes`: **entries correspond to the bytes that are read**
-/

namespace Stencil.Wire

/-- Bytes are the words that they hold, if no word is incomplete. -/
theorem flatMap_wordBytes_words {bytes : List UInt8} (h : bytes.length % 4 = 0) :
    (words bytes).flatMap wordBytes = bytes := by
  fun_induction words bytes with
  | case1 a b c d rest ih =>
    have hrest : rest.length % 4 = 0 := by
      simp only [List.length_cons] at h
      omega
    rw [List.flatMap_cons, wordBytes_wordOf, ih hrest]
    rfl
  | case2 l hshort =>
    rcases l with _ | ⟨a, _ | ⟨b, _ | ⟨c, _ | ⟨d, rest⟩⟩⟩⟩
    · rfl
    · cases h
    · cases h
    · cases h
    · exact absurd rfl (hshort a b c d rest)

/-- Each kind has one number. -/
theorem kindCode_of_kindOfCode? {n : UInt32} {k : SegmentKind} (h : kindOfCode? n = some k) :
    kindCode k = n := by
  rw [kindOfCode?] at h
  split at h
  · rename_i hn
    cases h
    exact hn.symm
  · split at h
    · rename_i hn
      cases h
      exact hn.symm
    · cases h

namespace PartsEntry

/-- An entry written behind other bytes: the name, the number of segments, and one segment after the
other. -/
def write (out : List UInt8) (e : PartsEntry) : List UInt8 :=
  e.segments.foldl (fun out s => out ++ wordBytes (kindCode s.kind) ++ s.value.bytes)
    (out ++ e.name.bytes ++ wordBytes (.ofNat e.segments.length))

theorem foldl_append_segments (segments : List SegmentRef) (out : List UInt8) :
    segments.foldl (fun out s => out ++ wordBytes (kindCode s.kind) ++ s.value.bytes) out =
      out ++ segments.flatMap SegmentRef.bytes := by
  induction segments generalizing out with
  | nil => rw [List.foldl_nil, List.flatMap_nil, List.append_nil]
  | cons s segments ih =>
    rw [List.foldl_cons, ih, List.flatMap_cons, SegmentRef.bytes]
    simp only [List.append_assoc]

/-- **Writing adds the wire form**, whatever is there. -/
theorem write_eq (out : List UInt8) (e : PartsEntry) : e.write out = out ++ e.bytes := by
  rw [write, foldl_append_segments, bytes]
  simp only [List.append_assoc]

/-- The segments that are read are those whose words are read, three words for each. -/
theorem segmentsOfWords_eq_ok {ws : List UInt32} {segments : List SegmentRef}
    (hlength : ws.length % 3 = 0) (h : segmentsOfWords ws = .ok segments) :
    ws.length = 3 * segments.length ∧
      segments.flatMap SegmentRef.bytes = ws.flatMap wordBytes := by
  fun_induction segmentsOfWords ws generalizing segments with
  | case1 kind offset length rest hkind => cases h
  | case2 kind offset length rest k hkind ih =>
    cases hrest : segmentsOfWords rest with
    | error err =>
      rw [hrest] at h
      cases h
    | ok tail =>
      rw [hrest] at h
      cases h
      have hmod : rest.length % 3 = 0 := by
        simp only [List.length_cons] at hlength
        omega
      obtain ⟨hcount, hbytes⟩ := ih hmod hrest
      constructor
      · simp only [List.length_cons, hcount]
        omega
      · simp only [List.flatMap_cons, SegmentRef.bytes, StringRef.bytes,
          kindCode_of_kindOfCode? hkind, hbytes, List.append_assoc]
  | case3 ws hshort =>
    cases h
    rcases ws with _ | ⟨a, _ | ⟨b, _ | ⟨c, rest⟩⟩⟩
    · exact ⟨rfl, rfl⟩
    · cases hlength
    · cases hlength
    · exact absurd rfl (hshort a b c rest)

/-- **Whatever is read is the wire form of the entry**, whose segments are counted in a word. -/
theorem bytes_of_ofBytes {data : List UInt8} {e : PartsEntry} (h : ofBytes data = .ok e) :
    e.bytes = data ∧ e.segments.length < wordLimit := by
  rw [ofBytes] at h
  split at h
  · rename_i offset length count rest hwords
    split at h
    · rename_i hsize
      cases hsegments : segmentsOfWords rest with
      | error err =>
        rw [hsegments] at h
        cases h
      | ok segments =>
        rw [hsegments] at h
        cases h
        -- The size leaves three words for each segment, and no byte besides.
        have hcount := length_words data
        rw [hwords, List.length_cons, List.length_cons, List.length_cons, hsize, size] at hcount
        have hfour : data.length % 4 = 0 := by
          rw [hsize, size]
          omega
        obtain ⟨hlength, hbytes⟩ := segmentsOfWords_eq_ok (by omega) hsegments
        have hn : segments.length = count.toNat := by omega
        constructor
        · calc bytes ⟨⟨offset, length⟩, segments⟩
              = wordBytes offset ++ wordBytes length ++ wordBytes count ++
                  rest.flatMap wordBytes := by
                rw [bytes, StringRef.bytes, hbytes, hn, UInt32.ofNat_toNat]
            _ = (words data).flatMap wordBytes := by
                simp only [hwords, List.flatMap_cons, List.append_assoc]
            _ = data := flatMap_wordBytes_words hfour
        · rw [hn]
          exact count.toNat_lt
    · cases h
  · cases h

/-- **Entries correspond to the bytes that are read.** Writing an entry leaves what is there and
adds its wire form, which has twelve bytes and twelve for each segment. A byte string is read as the
entry exactly if it is the wire form and the segments can be counted in a word. -/
theorem write_iff_ofBytes (e : PartsEntry) :
    (∀ out, e.write out = out ++ e.bytes) ∧
    e.bytes.length = 12 + 12 * e.segments.length ∧
    ∀ data, ofBytes data = .ok e ↔ e.segments.length < wordLimit ∧ e.bytes = data := by
  refine ⟨fun out => write_eq out e, length_bytes e, fun data => ?_⟩
  constructor
  · intro h
    obtain ⟨hbytes, hcount⟩ := bytes_of_ofBytes h
    exact ⟨hcount, hbytes⟩
  · rintro ⟨hcount, rfl⟩
    exact ofBytes_bytes hcount

end PartsEntry

end Stencil.Wire
