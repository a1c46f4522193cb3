/-!
# Splitting a list in front of a suffix

Every search in this library asks the same question of a text: which is the first suffix with a
given property? `breakAt p s` cuts `s` in front of it. A terminator, the end of a run of text, a
placeholder and the end tag of a raw-text element are all found this way.

## Main definitions

* `breakAt p s`: the part before the first nonempty suffix that satisfies `p`, and that suffix
* `breakPast t s`: the part up to and including the first occurrence of `t`, and the rest

## Main results

* `breakAt_append`, `breakPast_append`: nothing is lost
* `breakAt_snd`: the second part is empty or satisfies `p`
* `breakAt_fst`: no suffix that begins inside the first part satisfies `p`
-/

namespace Stencil.Text

variable {α : Type}

/-- Cuts a list in front of its first nonempty suffix that satisfies `p`. Without such a suffix
the second part is empty. -/
def breakAt (p : List α → Bool) (s : List α) : List α × List α :=
  go [] s
where
  /-- The search with what was passed so far, latest first. -/
  go (acc : List α) : List α → List α × List α
    | [] => (acc.reverse, [])
    | x :: xs => if p (x :: xs) then (acc.reverse, x :: xs) else go (x :: acc) xs

theorem breakAt_go (p : List α → Bool) (acc s : List α) :
    breakAt.go p acc s = (acc.reverse ++ (breakAt p s).1, (breakAt p s).2) := by
  induction s generalizing acc with
  | nil => simp [breakAt, breakAt.go]
  | cons x xs ih =>
    simp only [breakAt, breakAt.go]
    by_cases h : p (x :: xs)
    · simp [h]
    · simp only [h, Bool.false_eq_true, if_false]
      rw [ih, ih [x]]
      simp

@[simp] theorem breakAt_nil (p : List α → Bool) : breakAt p [] = ([], []) := rfl

theorem breakAt_cons_pos {p : List α → Bool} {x : α} {xs : List α} (h : p (x :: xs) = true) :
    breakAt p (x :: xs) = ([], x :: xs) := by
  simp [breakAt, breakAt.go, h]

theorem breakAt_cons_neg {p : List α → Bool} {x : α} {xs : List α} (h : p (x :: xs) = false) :
    breakAt p (x :: xs) = (x :: (breakAt p xs).1, (breakAt p xs).2) := by
  rw [breakAt, breakAt.go]
  simp [h, breakAt_go]

/-- **Nothing is lost**: the two parts concatenate to the list. -/
theorem breakAt_append (p : List α → Bool) (s : List α) :
    (breakAt p s).1 ++ (breakAt p s).2 = s := by
  induction s with
  | nil => rfl
  | cons x xs ih =>
    by_cases h : p (x :: xs) = true
    · simp [breakAt_cons_pos h]
    · simp [breakAt_cons_neg (Bool.eq_false_iff.mpr h), ih]

theorem breakAt_length_le (p : List α → Bool) (s : List α) :
    (breakAt p s).2.length ≤ s.length := by
  have := congrArg List.length (breakAt_append p s)
  simp only [List.length_append] at this
  omega

/-- The second part is empty or satisfies the property. -/
theorem breakAt_snd (p : List α → Bool) (s : List α) :
    (breakAt p s).2 = [] ∨ p (breakAt p s).2 = true := by
  induction s with
  | nil => exact .inl rfl
  | cons x xs ih =>
    by_cases h : p (x :: xs) = true
    · exact .inr (by simp [breakAt_cons_pos h, h])
    · simpa [breakAt_cons_neg (Bool.eq_false_iff.mpr h)] using ih

/-- No suffix that begins inside the first part satisfies the property. -/
theorem breakAt_fst (p : List α → Bool) {s u v : List α} (h : (breakAt p s).1 = u ++ v)
    (hv : v ≠ []) : p (v ++ (breakAt p s).2) = false := by
  induction s generalizing u with
  | nil => simp_all
  | cons x xs ih =>
    by_cases hx : p (x :: xs) = true
    · simp_all [breakAt_cons_pos hx]
    · rw [breakAt_cons_neg (Bool.eq_false_iff.mpr hx)] at h ⊢
      cases u with
      | nil =>
        simp only [List.nil_append] at h
        rw [← h]
        simpa [breakAt_append] using hx
      | cons y u =>
        simp only [List.cons_append, List.cons.injEq] at h
        exact ih h.2

/-- Cuts a list behind the first occurrence of `t`. Without an occurrence the first part is the
whole list. -/
def breakPast [BEq α] (t s : List α) : List α × List α :=
  ((breakAt t.isPrefixOf s).1 ++ (breakAt t.isPrefixOf s).2.take t.length,
    (breakAt t.isPrefixOf s).2.drop t.length)

theorem breakPast_append [BEq α] (t s : List α) : (breakPast t s).1 ++ (breakPast t s).2 = s := by
  rw [breakPast, List.append_assoc, List.take_append_drop, breakAt_append]

end Stencil.Text
