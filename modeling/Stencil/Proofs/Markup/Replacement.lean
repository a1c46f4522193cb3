import Stencil.Proofs.Markup.Numerals
import Stencil.Proofs.Text.Search

/-!
# Replacing all references at once

A reference begins with an ampersand, ends with a semicolon and has neither in between, so that two
references of a text never overlap. All of them can be replaced at once: each place of a text writes
the character of the reference that begins there, nothing inside a reference, and its own character
everywhere else. Decoding, which looks for the next reference behind the last one, writes the same.
In particular what was written for a reference is never read again, and a text comes back from every
way to write its characters as references.

## Main definitions

* `StandsFor`: the bodies of references, with their characters
* `IsReference`, `OccursAt`: references, and where they stand in a text
* `Replaced`: what each place of a text writes
* `Escapes`: the ways to write a text with references

## Main results

* `referent?_eq_some_iff`: the bodies that are read
* `front?_eq_some_iff`: a reference at the front of a text
* `Replaced.unique`: what each place writes is settled by the references of the text
* `exists_replaced`: decoding writes what the places write
* `decodeChars_of_escapes`: decoding undoes every escape
* `decode_iff_replaced`: **decoding replaces all references at once**
-/

namespace Stencil.Markup.Reference

/-- The bodies of references, with the characters that they stand for. -/
inductive StandsFor : List Char → Char → Prop
  | amp : StandsFor ['a', 'm', 'p'] '&'
  | lt : StandsFor ['l', 't'] '<'
  | gt : StandsFor ['g', 't'] '>'
  | quot : StandsFor ['q', 'u', 'o', 't'] '"'
  | apos : StandsFor ['a', 'p', 'o', 's'] '\x27'
  | nbsp : StandsFor ['n', 'b', 's', 'p'] '\u00a0'
  | number {marker digits : List Char} {base n : Nat} {c : Char} (radix : Radix marker base)
      (nonempty : digits ≠ []) (value : Denotes base digits n) (fits : n < UInt32.size)
      (char : IsCharOf n c) : StandsFor ('#' :: (marker ++ digits)) c

/-- A reference, with the character that it stands for. -/
def IsReference (w : List Char) (c : Char) : Prop :=
  ∃ body, w = '&' :: (body ++ [';']) ∧ StandsFor body c

/-- A reference that stands at a place of a text. -/
def OccursAt (s : List Char) (place : Nat) (w : List Char) (c : Char) : Prop :=
  IsReference w c ∧ w <+: s.drop place

/-- What each place of a text writes when all references are replaced at once. -/
structure Replaced (s : List Char) (written : List (List Char)) : Prop where
  length : written.length = s.length
  /-- Where a reference begins, its character is written. -/
  begins : ∀ p w c, OccursAt s p w c → written[p]? = some [c]
  /-- The other places of a reference write nothing. -/
  inside : ∀ p w c, OccursAt s p w c → ∀ q, p < q → q < p + w.length → written[q]? = some []
  /-- A character outside all references is kept. -/
  outside : ∀ q x, s[q]? = some x →
    (∀ p w c, OccursAt s p w c → ¬ (p ≤ q ∧ q < p + w.length)) → written[q]? = some [x]

/-- The ways to write a text with references: a character stands for itself, unless it is the
ampersand, or is written as one of its references. -/
inductive Escapes : List Char → List Char → Prop
  | nil : Escapes [] []
  | plain {c : Char} {s t : List Char} (h : c ≠ '&') (rest : Escapes s t) :
      Escapes (c :: s) (c :: t)
  | reference {w : List Char} {c : Char} {s t : List Char} (h : IsReference w c)
      (rest : Escapes s t) : Escapes (c :: s) (w ++ t)

variable {s tail after body w w' : List Char} {c c' x : Char} {written written' : List (List Char)}

/-! ## Bodies -/

theorem StandsFor.notMem (h : StandsFor body c) : ';' ∉ body ∧ '&' ∉ body := by
  cases h with
  | number radix _ value => exact notMem_number radix value
  | _ => simp

/-- The bodies that are read are those that stand for a character. -/
theorem referent?_eq_some_iff : referent? body = some c ↔ StandsFor body c := by
  constructor
  · intro h
    have hnumber : ∀ {marker digits : List Char} {base : Nat}, Radix marker base →
        ofDigits? base digits = some c → StandsFor ('#' :: (marker ++ digits)) c := by
      intro marker digits base hr hd
      obtain ⟨hne, n, hn, hlt, rfl⟩ := exists_denotes_of_ofDigits? hr.base_le hd
      exact .number hr hne hn hlt (isCharOf_iff.mpr rfl)
    rw [referent?.eq_def] at h
    split at h
    · exact hnumber .hexadecimal h
    · exact hnumber .hexadecimalCapital h
    · exact hnumber .decimal h
    · obtain ⟨front, back, hsplit, -⟩ := List.lookup_eq_some_iff.mp h
      have hmem : (_, c) ∈ named := hsplit ▸ List.mem_append_right front List.mem_cons_self
      simp only [named, List.mem_cons, Prod.mk.injEq, List.not_mem_nil, or_false] at hmem
      rcases hmem with ⟨rfl, rfl⟩ | ⟨rfl, rfl⟩ | ⟨rfl, rfl⟩ | ⟨rfl, rfl⟩ | ⟨rfl, rfl⟩ | ⟨rfl, rfl⟩
      · exact .amp
      · exact .lt
      · exact .gt
      · exact .quot
      · exact .apos
      · exact .nbsp
  · intro h
    cases h with
    | number radix nonempty value fits char =>
      rw [referent?_number radix value, ofDigits?_of_denotes radix.base_le nonempty value,
        if_pos fits, isCharOf_iff.mp char]
    | _ => rfl

/-- What is read behind an ampersand is a body that stands for a character, and a semicolon. -/
theorem front?_eq_some_iff :
    front? tail = some (c, after) ↔ ∃ body, tail = body ++ ';' :: after ∧ StandsFor body c := by
  constructor
  · intro h
    rw [front?] at h
    split at h
    · cases h
    · rename_i d rest hdrop
      obtain ⟨c', hc, hpair⟩ := Option.map_eq_some_iff.mp h
      cases hpair
      obtain rfl : d = ';' := by simpa using Text.head_dropWhile hdrop
      refine ⟨tail.takeWhile (· ≠ ';'), ?_, referent?_eq_some_iff.mp hc⟩
      rw [← hdrop, List.takeWhile_append_dropWhile]
  · rintro ⟨body, rfl, hbody⟩
    rw [front?_append hbody.notMem.1, referent?_eq_some_iff.mpr hbody]
    rfl

/-! ## References in a text -/

/-- A reference at the front of a text is read, whatever stands behind it. -/
theorem IsReference.front? (h : IsReference w c) (s : List Char) :
    ∃ tail, w ++ s = '&' :: tail ∧ Reference.front? tail = some (c, s) := by
  obtain ⟨body, rfl, hbody⟩ := h
  exact ⟨body ++ ';' :: s, by simp, front?_eq_some_iff.mpr ⟨body, rfl, hbody⟩⟩

theorem IsReference.decodeChars_append (h : IsReference w c) (s : List Char) :
    decodeChars (w ++ s) = c :: decodeChars s := by
  obtain ⟨tail, htail, hfront⟩ := h.front? s
  rw [htail, decodeChars_ampersand hfront]

theorem IsReference.two_le_length (h : IsReference w c) : 2 ≤ w.length := by
  obtain ⟨body, rfl, -⟩ := h
  simp

/-- Two references that begin at one place are the same. -/
theorem IsReference.unique (h : IsReference w c) (h' : IsReference w' c') (hp : w' <+: w ++ s) :
    w' = w ∧ c' = c := by
  obtain ⟨more, hmore⟩ := hp
  obtain ⟨tail, htail, hfront⟩ := h.front? s
  obtain ⟨tail', htail', hfront'⟩ := h'.front? more
  have hsame : tail' = tail := by simpa [htail, htail'] using hmore
  rw [hsame, hfront] at hfront'
  simp only [Option.some.injEq, Prod.mk.injEq] at hfront'
  obtain ⟨rfl, rfl⟩ := hfront'
  exact ⟨List.append_cancel_right hmore, rfl⟩

/-- No reference begins inside another one, since it would begin with an ampersand. -/
theorem IsReference.not_occursAt (h : IsReference w c) {p : Nat} (hpos : 0 < p)
    (hlt : p < w.length) : ¬ OccursAt (w ++ s) p w' c' := by
  rintro ⟨⟨body', rfl, -⟩, more, hmore⟩
  obtain ⟨body, rfl, hbody⟩ := h
  obtain ⟨k, rfl⟩ : ∃ k, p = k + 1 := ⟨p - 1, by omega⟩
  have hk : k < (body ++ [';']).length := by simpa using hlt
  have hget : (body ++ [';'])[k]? = some '&' := by
    have hhead := congrArg List.head? hmore
    rw [List.cons_append, List.head?_cons, List.cons_append, List.drop_succ_cons, List.head?_drop,
      List.getElem?_append_left hk] at hhead
    exact hhead.symm
  have hmem : '&' ∈ body ++ [';'] := List.mem_of_getElem? hget
  simp [hbody.notMem.2] at hmem

theorem not_occursAt_nil {p : Nat} : ¬ OccursAt [] p w c := by
  rintro ⟨href, hp⟩
  have hlength := href.two_le_length
  rw [List.drop_nil, List.prefix_nil] at hp
  simp [hp] at hlength

theorem occursAt_append {p : Nat} :
    OccursAt (s ++ tail) (s.length + p) w c ↔ OccursAt tail p w c := by
  rw [OccursAt, OccursAt, List.drop_length_add_append]

/-- A reference in a text that begins with one is that one, or stands behind it. -/
theorem IsReference.occursAt_cases (h : IsReference w c) {p : Nat}
    (ho : OccursAt (w ++ s) p w' c') :
    (p = 0 ∧ w' = w ∧ c' = c) ∨ ∃ k, p = w.length + k ∧ OccursAt s k w' c' := by
  by_cases hp : p < w.length
  · have hzero : p = 0 := by
      by_contra hne
      exact h.not_occursAt (Nat.pos_of_ne_zero hne) hp ho
    subst hzero
    exact .inl ⟨rfl, h.unique ho.1 ho.2⟩
  · obtain ⟨k, rfl⟩ := Nat.exists_eq_add_of_le (Nat.not_lt.mp hp)
    exact .inr ⟨k, rfl, occursAt_append.mp ho⟩

/-- Where the scanner finds no reference, none stands. -/
theorem not_occursAt_zero (h : x = '&' → front? tail = none) : ¬ OccursAt (x :: tail) 0 w c := by
  rintro ⟨href, more, hmore⟩
  obtain ⟨tail', htail', hfront⟩ := href.front? more
  rw [htail', List.drop_zero] at hmore
  obtain ⟨rfl, rfl⟩ := List.cons.inj hmore
  rw [h rfl] at hfront
  cases hfront

/-! ## What the places write -/

theorem replaced_nil : Replaced [] [] where
  length := rfl
  begins _ _ _ h := absurd h not_occursAt_nil
  inside _ _ _ h := absurd h not_occursAt_nil
  outside q x h := by simp at h

/-- A character at which no reference begins is kept, and moves the other places by one. -/
theorem Replaced.plain (hfree : ∀ w c, ¬ OccursAt (x :: s) 0 w c) (h : Replaced s written) :
    Replaced (x :: s) ([x] :: written) where
  length := by simp [h.length]
  begins p w c ho := by
    cases p with
    | zero => exact absurd ho (hfree w c)
    | succ p => exact h.begins p w c ho
  inside p w c ho q hpq hq := by
    cases p with
    | zero => exact absurd ho (hfree w c)
    | succ p =>
      obtain ⟨q, rfl⟩ : ∃ q', q = q' + 1 := ⟨q - 1, by omega⟩
      exact h.inside p w c ho q (by omega) (by omega)
  outside q y hy hout := by
    cases q with
    | zero =>
      cases hy
      rfl
    | succ q =>
      apply h.outside q y hy
      intro p w c ho hcover
      exact hout (p + 1) w c ho ⟨by omega, by omega⟩

/-- A reference writes its character once, and moves the other places by its length. -/
theorem Replaced.reference (hw : IsReference w c) (h : Replaced s written) :
    Replaced (w ++ s) ([c] :: List.replicate (w.length - 1) [] ++ written) := by
  have hlength := hw.two_le_length
  have hown : ([c] :: List.replicate (w.length - 1) []).length = w.length := by
    simp
    omega
  have hbehind : ∀ k, ([c] :: List.replicate (w.length - 1) [] ++ written)[w.length + k]? =
      written[k]? := by
    intro k
    rw [List.getElem?_append_right (by omega), hown, Nat.add_sub_cancel_left]
  constructor
  case length => rw [List.length_append, List.length_append, hown, h.length]
  case begins =>
    intro p w' c' ho
    rcases hw.occursAt_cases ho with ⟨rfl, rfl, rfl⟩ | ⟨k, rfl, hk⟩
    · rfl
    · rw [hbehind, h.begins k w' c' hk]
  case inside =>
    intro p w' c' ho q hpq hq
    rcases hw.occursAt_cases ho with ⟨rfl, rfl, rfl⟩ | ⟨k, rfl, hk⟩
    · obtain ⟨q, rfl⟩ : ∃ q', q = q' + 1 := ⟨q - 1, by omega⟩
      rw [List.getElem?_append_left (by omega), List.getElem?_cons_succ,
        List.getElem?_replicate, if_pos (by omega)]
    · obtain ⟨j, rfl⟩ := Nat.exists_eq_add_of_le (show w.length ≤ q by omega)
      rw [hbehind, h.inside k w' c' hk j (by omega) (by omega)]
  case outside =>
    intro q y hy hout
    have hfront : OccursAt (w ++ s) 0 w c := ⟨hw, List.prefix_append w s⟩
    have hq : w.length ≤ q := by
      by_contra hlt
      exact hout 0 w c hfront ⟨by omega, by omega⟩
    obtain ⟨j, rfl⟩ := Nat.exists_eq_add_of_le hq
    rw [List.getElem?_append_right (by omega), Nat.add_sub_cancel_left] at hy
    rw [hbehind]
    apply h.outside j y hy
    intro p w' c' ho hcover
    exact hout (w.length + p) w' c' (occursAt_append.mpr ho) ⟨by omega, by omega⟩

/-- What each place writes is settled by the references of the text. -/
theorem Replaced.unique (h : Replaced s written) (h' : Replaced s written') :
    written = written' := by
  apply List.ext_getElem?
  intro q
  by_cases hcover : ∃ p w c, OccursAt s p w c ∧ p ≤ q ∧ q < p + w.length
  · obtain ⟨p, w, c, ho, hle, hlt⟩ := hcover
    rcases hle.eq_or_lt with rfl | hpq
    · rw [h.begins p w c ho, h'.begins p w c ho]
    · rw [h.inside p w c ho q hpq hlt, h'.inside p w c ho q hpq hlt]
  · have hout : ∀ p w c, OccursAt s p w c → ¬ (p ≤ q ∧ q < p + w.length) :=
      fun p w c ho hc => hcover ⟨p, w, c, ho, hc⟩
    cases hx : s[q]? with
    | some x => rw [h.outside q x hx hout, h'.outside q x hx hout]
    | none =>
      have hlen := List.getElem?_eq_none_iff.mp hx
      rw [List.getElem?_eq_none (h.length ▸ hlen), List.getElem?_eq_none (h'.length ▸ hlen)]

/-! ## Decoding -/

/-- **Decoding writes what the places write**, one reference or one character after the other. -/
theorem exists_replaced (s : List Char) :
    ∃ written, Replaced s written ∧ decodeChars s = written.flatten := by
  -- By the length of the text, since a reference takes several characters at once.
  induction hn : s.length using Nat.strong_induction_on generalizing s with
  | _ n ih =>
    match s with
    | [] => exact ⟨[], replaced_nil, decodeChars_nil⟩
    | x :: tail =>
      have hkeep : (x = '&' → front? tail = none) →
          decodeChars (x :: tail) = x :: decodeChars tail →
          ∃ written, Replaced (x :: tail) written ∧ decodeChars (x :: tail) = written.flatten := by
        intro hnone hdecode
        obtain ⟨written, hwritten, hflat⟩ := ih tail.length (by simp [← hn]) tail rfl
        refine ⟨[x] :: written, hwritten.plain fun w c => not_occursAt_zero hnone, ?_⟩
        rw [hdecode, hflat, List.flatten_cons, List.singleton_append]
      by_cases hx : x = '&'
      · subst hx
        cases hfront : front? tail with
        | none => exact hkeep (fun _ => hfront) (decodeChars_ampersand_of_none hfront)
        | some found =>
          obtain ⟨c, after⟩ := found
          have hshort := front?_length hfront
          obtain ⟨written, hwritten, hflat⟩ :=
            ih after.length (by simp [← hn]; omega) after rfl
          obtain ⟨body, rfl, hbody⟩ := front?_eq_some_iff.mp hfront
          have href : IsReference ('&' :: (body ++ [';'])) c := ⟨body, rfl, hbody⟩
          have hreplaced := Replaced.reference href hwritten
          refine ⟨_, by simpa using hreplaced, ?_⟩
          rw [decodeChars_ampersand hfront, hflat]
          simp
      · exact hkeep (fun h => absurd h hx) (decodeChars_cons_of_ne hx tail)

/-- **Decoding undoes every escape.** -/
theorem decodeChars_of_escapes {t : List Char} (h : Escapes s t) : decodeChars t = s := by
  induction h with
  | nil => exact decodeChars_nil
  | plain hc _ ih => rw [decodeChars_cons_of_ne hc, ih]
  | reference hw _ ih => rw [hw.decodeChars_append, ih]

/-- **Decoding replaces all references at once.** A text is decoded to what its places write: the
character of a reference where one begins, nothing inside a reference, and the own character
everywhere else. Hence decoding gives a text back from every way to write it with references. -/
theorem decode_iff_replaced :
    (∀ s t : String, decode s = t ↔
      ∃ written, Replaced s.toList written ∧ t.toList = written.flatten) ∧
    ∀ s t : String, Escapes s.toList t.toList → decode t = s := by
  constructor
  · intro s t
    obtain ⟨written, hwritten, hflat⟩ := exists_replaced s.toList
    constructor
    · rintro rfl
      exact ⟨written, hwritten, by rw [decode, String.toList_ofList, hflat]⟩
    · rintro ⟨written', hwritten', ht⟩
      rw [decode, hflat, hwritten.unique hwritten', ← ht, String.ofList_toList]
  · intro s t h
    rw [decode, decodeChars_of_escapes h, String.ofList_toList]

/-- A name, zeros in front, both cases of letters, and a null character, which has no reference. -/
theorem decode_iff_replaced_null :
    Escapes "&<\x00é".toList "&amp;&#x03c;\x00&#XE9;".toList ∧
      decode "&amp;&#x03c;\x00&#XE9;" = "&<\x00é" := by
  have hbracket : IsReference ['&', '#', 'x', '0', '3', 'c', ';'] '<' :=
    ⟨['#', 'x', '0', '3', 'c'], rfl, referent?_eq_some_iff.mp rfl⟩
  have haccent : IsReference ['&', '#', 'X', 'E', '9', ';'] 'é' :=
    ⟨['#', 'X', 'E', '9'], rfl, referent?_eq_some_iff.mp rfl⟩
  have hescapes : Escapes "&<\x00é".toList "&amp;&#x03c;\x00&#XE9;".toList :=
    .reference ⟨['a', 'm', 'p'], rfl, .amp⟩
      (.reference hbracket (.plain (by decide) (.reference haccent .nil)))
  exact ⟨hescapes, decode_iff_replaced.2 _ _ hescapes⟩

end Stencil.Markup.Reference
