import Stencil.Proofs.Wire.Layout
import Stencil.Proofs.Wire.Outcome

/-!
# The layout of value parts

An entry of the block of value parts is a name, a count and three words for each segment, and its
size has to be the one that the count asks for. The layout is said here by the places of the words
in a byte string. A reader that walks along the words finds the same name and the same segments, or
what is wrong with the layout.

## Main definitions

* `wordAt?`: a word of a byte string
* `LaidOut`, `LayoutFault`: the layout of an entry, and what is wrong with a byte string that has
  another one
* `IsKind`, `KindFault`: the kinds that a segment may have

## Main results

* `laidOut_iff`: the layout along the words
* `ofBytes_cases`: what reading an entry gives
-/

namespace Stencil.Wire

/-! ## Words -/

/-- The word whose first byte is the one numbered `offset`. -/
def wordAt? (bytes : List UInt8) (offset : Nat) : Option UInt32 :=
  (words (bytes.drop offset)).head?

theorem words_drop (bytes : List UInt8) (n : Nat) :
    words (bytes.drop (4 * n)) = (words bytes).drop n := by
  induction n generalizing bytes with
  | zero => rfl
  | succ n ih =>
    match bytes with
    | a :: b :: c :: d :: rest => exact ih rest
    | [] | [_] | [_, _] | [_, _, _] => simp [words, Nat.mul_succ]

theorem wordAt?_mul (bytes : List UInt8) (n : Nat) : wordAt? bytes (4 * n) = (words bytes)[n]? := by
  rw [wordAt?, words_drop, List.head?_drop]

/-- The layout of an entry of value parts: the two words of a name, the number of segments at byte
8, and for each segment its kind and the two words of its text, with nothing behind. -/
structure LaidOut (data : List UInt8) (name : StringRef) (segments : List (UInt32 × StringRef)) :
    Prop where
  name : wordAt? data 0 = some name.offset ∧ wordAt? data 4 = some name.length
  count : ∃ count, wordAt? data 8 = some count ∧ data.length = 12 + 12 * count.toNat ∧
    segments.length = count.toNat
  kinds : ∀ k s, segments[k]? = some s → wordAt? data (12 + 12 * k) = some s.1
  values : ∀ k s, segments[k]? = some s → wordAt? data (16 + 12 * k) = some s.2.offset ∧
    wordAt? data (20 + 12 * k) = some s.2.length

/-- The fault of a byte string that is not laid out as an entry: a part is missing, or its size and
its count disagree. -/
inductive LayoutFault (data : List UInt8) : ImageError → Prop
  | noName (h : data.length < 8) : LayoutFault data (.malformedParts 8 data.length)
  | noCount (h : 8 ≤ data.length) (h' : data.length < 12) :
      LayoutFault data (.malformedParts 12 data.length)
  | size {count : UInt32} (h : wordAt? data 8 = some count)
      (h' : data.length ≠ 12 + 12 * count.toNat) :
      LayoutFault data (.malformedParts (12 + 12 * count.toNat) data.length)

/-- The kinds and the references that a sequence of words holds, three words for each. -/
def rawSegments : List UInt32 → List (UInt32 × StringRef)
  | kind :: offset :: length :: rest => (kind, ⟨offset, length⟩) :: rawSegments rest
  | _ => []

theorem length_rawSegments (ws : List UInt32) : (rawSegments ws).length = ws.length / 3 := by
  fun_induction rawSegments ws with
  | case1 a b c rest ih =>
    simp only [List.length_cons, ih]
    omega
  | case2 l h =>
    match l, h with
    | [], _ | [_], _ | [_, _], _ => simp
    | a :: b :: c :: rest, h => exact absurd rfl (h a b c rest)

theorem getElem?_rawSegments {ws : List UInt32} {k : Nat} {s : UInt32 × StringRef} :
    (rawSegments ws)[k]? = some s ↔
      ws[3 * k]? = some s.1 ∧ ws[3 * k + 1]? = some s.2.offset ∧
        ws[3 * k + 2]? = some s.2.length := by
  fun_induction rawSegments ws generalizing k with
  | case1 a b c rest ih =>
    cases k with
    | zero =>
      obtain ⟨kind, offset, length⟩ := s
      simp
    | succ k => exact ih
  | case2 l h =>
    have hnone : l[3 * k + 2]? = none := by
      match l, h with
      | [], _ | [_], _ | [_, _], _ => simp
      | a :: b :: c :: rest, h => exact absurd rfl (h a b c rest)
    simp [hnone]

/-- **An entry of value parts is a name, a count and three words for each segment.** -/
theorem laidOut_iff {data : List UInt8} {name : StringRef}
    {segments : List (UInt32 × StringRef)} :
    LaidOut data name segments ↔ ∃ count rest,
      words data = name.offset :: name.length :: count :: rest ∧
        data.length = 12 + 12 * count.toNat ∧ rawSegments rest = segments := by
  have h0 : wordAt? data 0 = (words data)[0]? := wordAt?_mul data 0
  have h1 : wordAt? data 4 = (words data)[1]? := wordAt?_mul data 1
  have h2 : wordAt? data 8 = (words data)[2]? := wordAt?_mul data 2
  have hkind : ∀ k, wordAt? data (12 + 12 * k) = (words data)[3 * k + 3]? := fun k => by
    rw [← wordAt?_mul]
    congr 1
    omega
  have hoffset : ∀ k, wordAt? data (16 + 12 * k) = (words data)[3 * k + 1 + 3]? := fun k => by
    rw [← wordAt?_mul]
    congr 1
    omega
  have hlength : ∀ k, wordAt? data (20 + 12 * k) = (words data)[3 * k + 2 + 3]? := fun k => by
    rw [← wordAt?_mul]
    congr 1
    omega
  have hwords := length_words data
  constructor
  · rintro ⟨hname, ⟨count, hcount, hsize, hsegments⟩, hkinds, hvalues⟩
    rw [h0, h1] at hname
    rw [h2] at hcount
    obtain ⟨a, b, c, rest, hw⟩ : ∃ a b c rest, words data = a :: b :: c :: rest := by
      match hw : words data with
      | a :: b :: c :: rest => exact ⟨a, b, c, rest, rfl⟩
      | [] | [_] | [_, _] => simp [hw] at hcount
    simp only [hw, List.getElem?_cons_succ, List.getElem?_cons_zero, Option.some.injEq]
      at hname hcount hkind hoffset hlength
    obtain ⟨rfl, rfl⟩ := hname
    subst hcount
    refine ⟨c, rest, hw, hsize, ?_⟩
    rw [hw, List.length_cons, List.length_cons, List.length_cons] at hwords
    apply List.ext_getElem?
    intro k
    cases hs : segments[k]? with
    | some s =>
      rw [getElem?_rawSegments, ← hkind, ← hoffset, ← hlength]
      exact ⟨hkinds k s hs, hvalues k s hs⟩
    | none =>
      rw [List.getElem?_eq_none_iff] at hs ⊢
      rw [length_rawSegments]
      omega
  · rintro ⟨count, rest, hw, hsize, rfl⟩
    simp only [hw, List.getElem?_cons_succ, List.getElem?_cons_zero]
      at h0 h1 h2 hkind hoffset hlength
    rw [hw, List.length_cons, List.length_cons, List.length_cons] at hwords
    refine ⟨⟨h0, h1⟩, ⟨count, h2, hsize, ?_⟩, fun k s hs => ?_, fun k s hs => ?_⟩
    · rw [length_rawSegments]
      omega
    · rw [hkind]
      exact (getElem?_rawSegments.mp hs).1
    · rw [hoffset, hlength]
      exact (getElem?_rawSegments.mp hs).2

/-- A byte string is laid out in one way at most. -/
theorem LaidOut.unique {data : List UInt8} {name name' : StringRef}
    {segments segments' : List (UInt32 × StringRef)} (h : LaidOut data name segments)
    (h' : LaidOut data name' segments') : name = name' ∧ segments = segments' := by
  obtain ⟨count, rest, hw, -, rfl⟩ := laidOut_iff.mp h
  obtain ⟨count', rest', hw', -, rfl⟩ := laidOut_iff.mp h'
  obtain ⟨offset, length⟩ := name
  obtain ⟨offset', length'⟩ := name'
  rw [hw] at hw'
  simp only [List.cons.injEq] at hw'
  obtain ⟨rfl, rfl, rfl, rfl⟩ := hw'
  exact ⟨rfl, rfl⟩

theorem le_length_of_wordAt? {data : List UInt8} {n : Nat} {w : UInt32}
    (h : wordAt? data (4 * n) = some w) : 4 * n + 4 ≤ data.length := by
  rw [wordAt?_mul] at h
  have := (List.getElem?_eq_some_iff.mp h).1
  rw [length_words] at this
  omega

theorem LayoutFault.not_laidOut {data : List UInt8} {err : ImageError} (h : LayoutFault data err)
    (name : StringRef) (segments : List (UInt32 × StringRef)) : ¬ LaidOut data name segments := by
  intro layout
  obtain ⟨count, hcount, hsize, -⟩ := layout.count
  cases h with
  | noName h => omega
  | noCount _ h => omega
  | size h h' =>
    rw [hcount] at h
    cases h
    exact h' hsize

theorem LayoutFault.unique {data : List UInt8} {err err' : ImageError} (h : LayoutFault data err)
    (h' : LayoutFault data err') : err = err' := by
  -- A count ends at byte 12, so that there is none if the size is below.
  have hcount : ∀ {count}, wordAt? data 8 = some count → 12 ≤ data.length :=
    fun h => le_length_of_wordAt? (n := 2) h
  cases h with
  | noName h =>
    cases h' with
    | noName => rfl
    | noCount h' => omega
    | size h' => have := hcount h'; omega
  | noCount h₁ h₂ =>
    cases h' with
    | noName h' => omega
    | noCount => rfl
    | size h' => have := hcount h'; omega
  | size h =>
    cases h' with
    | noName h' => have := hcount h; omega
    | noCount _ h' => have := hcount h; omega
    | size h' =>
      rw [h] at h'
      cases h'
      rfl

/-! ## Segments -/

/-- A kind that a segment may have. -/
def IsKind (segment : UInt32 × StringRef) : Prop :=
  segment.1 = 0 ∨ segment.1 = 1

/-- The fault of a segment whose kind does not exist. -/
def KindFault (segment : UInt32 × StringRef) (err : ImageError) : Prop :=
  ¬ IsKind segment ∧ err = .unknownSegmentKind segment.1

/-- A segment whose kind is looked up. -/
def segmentOf (s : UInt32 × StringRef) : Except ImageError SegmentRef :=
  match kindOfCode? s.1 with
  | none => .error (.unknownSegmentKind s.1)
  | some kind => .ok ⟨kind, s.2⟩

theorem judged_segmentOf (s : UInt32 × StringRef) :
    Judged (segmentOf s) (IsKind s) (KindFault s) := by
  rw [segmentOf, kindOfCode?]
  by_cases h0 : s.1 = 0
  · rw [if_pos h0]
    exact (judged_ok _).congr (by simp [IsKind, h0]) fun err => by simp [KindFault, IsKind, h0]
  · rw [if_neg h0]
    by_cases h1 : s.1 = 1
    · rw [if_pos h1]
      exact (judged_ok _).congr (by simp [IsKind, h1]) fun err => by simp [KindFault, IsKind, h1]
    · rw [if_neg h1]
      exact (judged_error _).congr (by simp [IsKind, h0, h1]) fun err => by
        simp [KindFault, IsKind, h0, h1]

theorem value_of_segmentOf {s : UInt32 × StringRef} {r : SegmentRef} (h : segmentOf s = .ok r) :
    r.value = s.2 := by
  rw [segmentOf] at h
  split at h
  · cases h
  · cases h
    rfl

theorem PartsEntry.segmentsOfWords_eq_mapM (ws : List UInt32) :
    segmentsOfWords ws = (rawSegments ws).mapM segmentOf := by
  fun_induction segmentsOfWords ws with
  | case1 kind offset length rest hk => simp [rawSegments, segmentOf, hk, bind, Except.bind]
  | case2 kind offset length rest k hk ih =>
    rw [ih, rawSegments, List.mapM_cons]
    simp only [segmentOf, hk, bind, Except.bind]
    cases List.mapM segmentOf (rawSegments rest) <;> rfl
  | case3 ws h =>
    rw [rawSegments]
    · rfl
    · exact h

/-- The segments of an entry name the references that its words hold. -/
theorem values_of_mapM {raw : List (UInt32 × StringRef)} {refs : List SegmentRef}
    (h : raw.mapM segmentOf = .ok refs) : refs.map (·.value) = raw.map (·.2) := by
  induction raw generalizing refs with
  | nil =>
    cases h
    rfl
  | cons s raw ih =>
    rw [List.mapM_cons] at h
    cases hs : segmentOf s with
    | error e =>
      rw [hs] at h
      cases h
    | ok r =>
      rw [hs] at h
      cases hrest : raw.mapM segmentOf with
      | error e =>
        rw [hrest] at h
        cases h
      | ok rest =>
        rw [hrest] at h
        cases h
        rw [List.map_cons, List.map_cons, value_of_segmentOf hs, ih hrest]

/-- What reading an entry gives: its name and its segments, if it is laid out, and otherwise what
is wrong with the layout. -/
theorem ofBytes_cases (data : List UInt8) :
    (∃ name segments, LaidOut data name segments ∧
      PartsEntry.ofBytes data = (segments.mapM segmentOf).map (⟨name, ·⟩)) ∨
    ∃ err, LayoutFault data err ∧ PartsEntry.ofBytes data = .error err := by
  have hlength := length_words data
  have hat : wordAt? data 8 = (words data)[2]? := wordAt?_mul data 2
  rw [PartsEntry.ofBytes]
  match hw : words data with
  | offset :: length :: count :: rest =>
    by_cases hsize : data.length = PartsEntry.size count.toNat
    · refine .inl ⟨⟨offset, length⟩, rawSegments rest, ?_, ?_⟩
      · exact laidOut_iff.mpr ⟨count, rest, hw, hsize, rfl⟩
      · rw [← PartsEntry.segmentsOfWords_eq_mapM]
        exact if_pos hsize
    · refine .inr ⟨_, .size ?_ hsize, if_neg hsize⟩
      rw [hat, hw]
      rfl
  | [] | [_] | [_, _] =>
    simp only [hw, List.length_cons, List.length_nil] at hlength
    by_cases h8 : data.length < 8
    · exact .inr ⟨_, .noName h8, by simp [h8]⟩
    · exact .inr ⟨_, .noCount (by omega) (by omega), by simp [h8]⟩

end Stencil.Wire
