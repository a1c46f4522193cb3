import Mathlib.Data.List.Infix
import Mathlib.Data.List.TakeWhile
import Stencil.Text.Blank

/-!
# Searches that end where they should

A search stops in front of the first suffix with a property. When a text is followed by such a
suffix, it stops there if no suffix that begins inside the text has the property, those that run on
into what follows included. For a terminator that no shift of itself overlaps, it is enough that the
text does not hold the terminator.

## Main definitions

* `Unbordered t`: no proper suffix of `t` begins `t`

## Main results

* `breakAt_append_eq`, `breakAt_snd_of_suffix`: where a search stops, and that it does
* `breakPast_append_eq`: the first occurrence of an unbordered terminator
* `breakPast_cases`: a terminator is found, or it is not there
* `breakAt_append_right`, `breakPast_append_right`: a search that ends inside a text ends there
  whatever follows
* `map_toLower_eq`: small letters stay small
* `head_dropWhile`: what stops a run
* `trim_eq_empty_iff`: trimming leaves nothing of blank text only
-/

namespace Stencil.Text

variable {α : Type}

/-- A search stops behind a text if no suffix that begins in the text has the property and what
follows has it. -/
theorem breakAt_append_eq {p : List α → Bool} {s rest : List α}
    (hs : ∀ u v, s = u ++ v → v ≠ [] → p (v ++ rest) = false)
    (hrest : rest = [] ∨ p rest = true) : breakAt p (s ++ rest) = (s, rest) := by
  induction s with
  | nil =>
    rcases hrest with rfl | hp
    · rfl
    cases rest with
    | nil => rfl
    | cons x xs => exact breakAt_cons_pos hp
  | cons x s ih =>
    have hx : p (x :: (s ++ rest)) = false := hs [] (x :: s) rfl (List.cons_ne_nil _ _)
    have htail : ∀ u v, s = u ++ v → v ≠ [] → p (v ++ rest) = false := by
      intro u v hsv
      exact hs (x :: u) v (by rw [hsv, List.cons_append])
    rw [List.cons_append, breakAt_cons_neg hx, ih htail]

/-- A search stops if there is a suffix with the property. -/
theorem breakAt_snd_of_suffix {p : List α → Bool} {s v : List α} (h : v <:+ s) (hv : v ≠ [])
    (hp : p v = true) : p (breakAt p s).2 = true := by
  rcases breakAt_snd p s with hnil | hsnd
  · have hfst := breakAt_append p s
    rw [hnil, List.append_nil] at hfst
    obtain ⟨u, rfl⟩ := h
    have hnone := breakAt_fst p hfst hv
    rw [hnil, List.append_nil, hp] at hnone
    cases hnone
  · exact hsnd

/-- A terminator that no shift of itself overlaps. -/
def Unbordered (t : List α) : Prop :=
  ∀ k < t.length, 0 < k → ¬ t.drop k <+: t

instance [DecidableEq α] (t : List α) : Decidable (Unbordered t) :=
  inferInstanceAs (Decidable (∀ k < t.length, 0 < k → ¬ t.drop k <+: t))

/-- An occurrence of an unbordered terminator cannot begin inside a text that does not hold it. -/
theorem Unbordered.not_isPrefix {t s u v rest : List α} (ht : Unbordered t) (hs : ¬ t <:+: s)
    (hsv : s = u ++ v) (hv : v ≠ []) : ¬ t <+: v ++ (t ++ rest) := by
  intro hp
  rcases Nat.lt_or_ge v.length t.length with hlt | hge
  · -- The occurrence would reach into the terminator, whose front it would overlap.
    refine ht v.length hlt (List.length_pos_iff.mpr hv) ?_
    have hdrop : t.drop v.length <+: t ++ rest := by
      have := hp.drop v.length
      rwa [List.drop_left] at this
    exact List.prefix_of_prefix_length_le hdrop (List.prefix_append t rest)
      (by rw [List.length_drop]; omega)
  · have htv : t <+: v := List.prefix_of_prefix_length_le hp (List.prefix_append v _) hge
    exact hs (hsv ▸ htv.isInfix.trans (List.suffix_append u v).isInfix)

/-- **The first occurrence of an unbordered terminator** is the one behind a text that does not hold
it. -/
theorem breakPast_append_eq [BEq α] [LawfulBEq α] {t s : List α} (ht : Unbordered t)
    (hs : ¬ t <:+: s) (rest : List α) : breakPast t (s ++ (t ++ rest)) = (s ++ t, rest) := by
  have hbreak : breakAt t.isPrefixOf (s ++ (t ++ rest)) = (s, t ++ rest) := by
    refine breakAt_append_eq ?_ (.inr ?_)
    · intro u v hsv hv
      rw [Bool.eq_false_iff]
      intro hp
      exact ht.not_isPrefix hs hsv hv (List.isPrefixOf_iff_prefix.mp hp)
    · exact List.isPrefixOf_iff_prefix.mpr (List.prefix_append t rest)
  rw [breakPast, hbreak, List.take_left, List.drop_left]

/-- A search for a terminator ends behind it, or it passes a whole list that does not hold it. -/
theorem breakPast_cases [BEq α] [LawfulBEq α] {t : List α} (ht : t ≠ []) (s : List α) :
    (∃ u, (breakPast t s).1 = u ++ t) ∨ (breakPast t s = (s, []) ∧ ¬ t <:+: s) := by
  rcases breakAt_snd t.isPrefixOf s with hnil | hprefix
  · have hfst := breakAt_append t.isPrefixOf s
    rw [hnil, List.append_nil] at hfst
    refine .inr ⟨?_, ?_⟩
    · rw [breakPast, hnil, hfst, List.take_nil, List.drop_nil, List.append_nil]
    · rintro ⟨u, v, huv⟩
      have hsuffix : t ++ v <:+ s := ⟨u, by rw [← huv, List.append_assoc]⟩
      have hstops := breakAt_snd_of_suffix hsuffix (List.append_ne_nil_of_left_ne_nil ht v)
        (List.isPrefixOf_iff_prefix.mpr (List.prefix_append t v))
      rw [hnil, List.isPrefixOf_iff_prefix, List.prefix_nil] at hstops
      exact ht hstops
  · obtain ⟨rest, hrest⟩ := List.isPrefixOf_iff_prefix.mp hprefix
    refine .inl ⟨(breakAt t.isPrefixOf s).1, ?_⟩
    rw [breakPast, ← hrest, List.take_left]

/-- A search that stops inside a text stops there whatever follows, if what follows does not change
which of the suffixes that it looks at have the property. -/
theorem breakAt_append_right {p : List α → Bool} {s : List α} (hne : (breakAt p s).2 ≠ [])
    (rest : List α)
    (hp : ∀ v, (breakAt p s).2 <:+ v → p (v ++ rest) = p v) :
    breakAt p (s ++ rest) = ((breakAt p s).1, (breakAt p s).2 ++ rest) := by
  have hsnd : p ((breakAt p s).2 ++ rest) = true := by
    rw [hp _ List.suffix_rfl]
    exact (breakAt_snd p s).resolve_left hne
  conv_lhs => rw [← breakAt_append p s, List.append_assoc]
  refine breakAt_append_eq ?_ (.inr hsnd)
  intro u v huv hv
  rw [← List.append_assoc, hp _ (List.suffix_append v _)]
  exact breakAt_fst p huv hv

theorem isPrefixOf_append_of_le [BEq α] [LawfulBEq α] {t s : List α} (h : t.length ≤ s.length)
    (rest : List α) : t.isPrefixOf (s ++ rest) = t.isPrefixOf s := by
  rw [Bool.eq_iff_iff, List.isPrefixOf_iff_prefix, List.isPrefixOf_iff_prefix]
  constructor
  · intro hp
    exact List.prefix_of_prefix_length_le hp (List.prefix_append s rest) h
  · intro hp
    exact hp.trans (List.prefix_append s rest)

/-- **The first occurrence of a terminator** in a text that holds it is the same whatever
follows. -/
theorem breakPast_append_right [BEq α] [LawfulBEq α] {t s : List α} (ht : t ≠ []) (hs : t <:+: s)
    (rest : List α) :
    breakPast t (s ++ rest) = ((breakPast t s).1, (breakPast t s).2 ++ rest) := by
  obtain ⟨u, w, huw⟩ := hs
  have hsuffix : t ++ w <:+ s := ⟨u, by rw [← huw, List.append_assoc]⟩
  have hfound := breakAt_snd_of_suffix hsuffix (List.append_ne_nil_of_left_ne_nil ht w)
    (List.isPrefixOf_iff_prefix.mpr (List.prefix_append t w))
  have hle := (List.isPrefixOf_iff_prefix.mp hfound).length_le
  have hne : (breakAt t.isPrefixOf s).2 ≠ [] := by
    intro hnil
    rw [hnil, List.length_nil, Nat.le_zero, List.length_eq_zero_iff] at hle
    exact ht hle
  have hbreak := breakAt_append_right hne rest fun v hv =>
    isPrefixOf_append_of_le (hle.trans hv.length_le) rest
  rw [breakPast, hbreak, List.take_append_of_le_length hle, List.drop_append_of_le_length hle]
  rfl

/-- A run that ends inside a text ends there whatever follows. -/
theorem takeWhile_append_of_dropWhile {p : α → Bool} {s : List α} (h : s.dropWhile p ≠ [])
    (rest : List α) : (s ++ rest).takeWhile p = s.takeWhile p := by
  rw [List.takeWhile_append, if_neg]
  intro hlen
  have hall := congrArg List.length (List.takeWhile_append_dropWhile (p := p) (l := s))
  rw [List.length_append, hlen] at hall
  exact h (List.length_eq_zero_iff.mp (by omega))

theorem dropWhile_append_of_dropWhile {p : α → Bool} {s : List α} (h : s.dropWhile p ≠ [])
    (rest : List α) : (s ++ rest).dropWhile p = s.dropWhile p ++ rest := by
  rw [List.dropWhile_append, if_neg]
  rwa [List.isEmpty_iff]

/-- A text without capitals is its own lowercase text. -/
theorem map_toLower_eq {s : List Char} (h : ∀ c ∈ s, c.isUpper = false) :
    s.map Char.toLower = s := by
  refine (List.map_congr_left fun c hc => ?_).trans (List.map_id s)
  exact dif_neg (of_decide_eq_false (h c hc))

/-- What stops a run is not of its kind. -/
theorem head_dropWhile {p : α → Bool} {s rest : List α} {x : α} (h : s.dropWhile p = x :: rest) :
    p x = false := by
  have hhead := List.head?_dropWhile_not p s
  rw [h] at hhead
  simpa using hhead

theorem isAlpha_of_isLower {c : Char} (h : c.isLower = true) : c.isAlpha = true := by
  show (c.isUpper || c.isLower) = true
  rw [h, Bool.or_true]

/-- Nothing is left of a text that is trimmed exactly if it is blank. -/
theorem trim_eq_empty_iff (s : String) : trim s = "" ↔ isBlankText s = true := by
  rw [trim, isBlankText, ← String.toList_inj, String.toList_ofList, trimChars, List.all_eq_true]
  constructor
  · intro h
    have hrev : (s.toList.dropWhile isBlank).reverse.dropWhile isBlank = [] := by simpa using h
    have hall := List.dropWhile_eq_nil_iff.mp hrev
    cases hd : s.toList.dropWhile isBlank with
    | nil => exact List.dropWhile_eq_nil_iff.mp hd
    | cons x xs =>
      -- The character that stops the search from the left stops the one from the right too.
      have hblank : isBlank x = true := hall x (by rw [hd]; simp)
      rw [head_dropWhile hd] at hblank
      cases hblank
  · intro h
    rw [List.dropWhile_eq_nil_iff.mpr h]
    rfl

end Stencil.Text
