import Mathlib

/-!
# Edit sequences

Single edits of a text, sequences of a given number of them, and the recurrence on the first
characters of two texts. The recurrence gives the length of a shortest sequence: some sequence is
that long, and an edit changes the distance to any text by at most one, so that no sequence is
shorter.
-/

namespace ProximityQuery

/-- One edit: a character is put in, taken out, or replaced by another. -/
inductive Edit : List Char → List Char → Prop
  | insert (before after : List Char) (c : Char) : Edit (before ++ after) (before ++ c :: after)
  | delete (before after : List Char) (c : Char) : Edit (before ++ c :: after) (before ++ after)
  | substitute (before after : List Char) {c d : Char} (hne : c ≠ d) :
    Edit (before ++ c :: after) (before ++ d :: after)

/-- A sequence of `n` edits that turns one text into another. -/
inductive Edits : Nat → List Char → List Char → Prop
  | none (s : List Char) : Edits 0 s s
  | next {n : Nat} {s t u : List Char} (first : Edit s t) (rest : Edits n t u) : Edits (n + 1) s u

section

variable {n m : Nat} {s t u : List Char}

/-- An insertion is undone by a deletion, and a substitution by a substitution. -/
theorem Edit.symm (h : Edit s t) : Edit t s := by
  cases h with
  | insert before after c => exact .delete before after c
  | delete before after c => exact .insert before after c
  | substitute before after hne => exact .substitute before after hne.symm

/-- An edit of a text is an edit of the text read from its end. -/
theorem Edit.reverse (h : Edit s t) : Edit s.reverse t.reverse := by
  cases h with
  | insert before after c =>
    have hedit := Edit.insert after.reverse before.reverse c
    simpa using hedit
  | delete before after c =>
    have hedit := Edit.delete after.reverse before.reverse c
    simpa using hedit
  | substitute before after hne =>
    have hedit := Edit.substitute after.reverse before.reverse hne
    simpa using hedit

/-- An edit behind the first character. -/
theorem Edit.cons (a : Char) (h : Edit s t) : Edit (a :: s) (a :: t) := by
  cases h with
  | insert before after c => exact .insert (a :: before) after c
  | delete before after c => exact .delete (a :: before) after c
  | substitute before after hne => exact .substitute (a :: before) after hne

/-- One more edit may come last as well as first. -/
theorem Edits.concat (h : Edits n s t) (last : Edit t u) : Edits (n + 1) s u := by
  induction h with
  | none s => exact .next last (.none u)
  | next first _ ih => exact .next first (ih last)

/-- Edits are undone by as many edits. -/
theorem Edits.symm (h : Edits n s t) : Edits n t s := by
  induction h with
  | none s => exact .none s
  | next first _ ih => exact ih.concat first.symm

/-- Texts read from their ends are as many edits apart. -/
theorem Edits.reverse (h : Edits n s t) : Edits n s.reverse t.reverse := by
  induction h with
  | none s => exact .none s.reverse
  | next first _ ih => exact .next first.reverse ih

/-- A character before both texts needs no edit. -/
theorem Edits.cons (a : Char) (h : Edits n s t) : Edits n (a :: s) (a :: t) := by
  induction h with
  | none s => exact .none (a :: s)
  | next first _ ih => exact .next (first.cons a) ih

/-- Of two numbers of edits the smaller one is a number of edits. -/
theorem edits_min (hn : Edits n s t) (hm : Edits m s t) : Edits (min n m) s t := by
  rcases min_choice n m with hmin | hmin
  · rwa [hmin]
  · rwa [hmin]

/-- A text is put together character by character. -/
theorem edits_insert_all (t : List Char) : Edits t.length [] t := by
  induction t with
  | nil => exact .none []
  | cons d t ih => exact ih.concat (.insert [] t d)

end

/-- The distance of two texts by their first characters: the first character of either text is left
over, or the two stand for each other. -/
def firstCharDistance : List Char → List Char → Nat
  | [], t => t.length
  | c :: s, [] => (c :: s).length
  | c :: s, d :: t =>
    min (min (firstCharDistance s (d :: t) + 1) (firstCharDistance (c :: s) t + 1))
      (firstCharDistance s t + if c = d then 0 else 1)
termination_by s t => s.length + t.length

/-- To the empty text all characters are deleted. -/
theorem firstCharDistance_nil_right (s : List Char) : firstCharDistance s [] = s.length := by
  cases s with
  | nil => rw [firstCharDistance]
  | cons c s => rw [firstCharDistance]

/-- The distance of two texts is the same in either direction. -/
theorem firstCharDistance_comm (s t : List Char) :
    firstCharDistance s t = firstCharDistance t s := by
  fun_induction firstCharDistance s t with
  | case1 t => rw [firstCharDistance_nil_right]
  | case2 c s => rw [firstCharDistance]
  | case3 c s d t ihremoved ihadded ihkept =>
    have hcost : (if c = d then 0 else 1) = if d = c then 0 else 1 := by simp only [eq_comm]
    rw [firstCharDistance, ihremoved, ihadded, ihkept, hcost, min_comm (firstCharDistance _ _ + 1)]

/-- A text has no distance to itself. -/
theorem firstCharDistance_self (s : List Char) : firstCharDistance s s = 0 := by
  induction s with
  | nil => rw [firstCharDistance, List.length_nil]
  | cons c s ih => simp [firstCharDistance, ih]

/-- A first character more adds at most one to the distance. -/
theorem firstCharDistance_cons_le (c : Char) (s t : List Char) :
    firstCharDistance (c :: s) t ≤ firstCharDistance s t + 1 := by
  cases t with
  | nil => simp [firstCharDistance_nil_right]
  | cons d t =>
    rw [firstCharDistance]
    omega

/-- Nor does it take more than one from the distance. -/
theorem firstCharDistance_le_cons (c : Char) (s t : List Char) :
    firstCharDistance s t ≤ firstCharDistance (c :: s) t + 1 := by
  induction t with
  | nil =>
    rw [firstCharDistance_nil_right, firstCharDistance_nil_right, List.length_cons]
    omega
  | cons d t ih =>
    -- whichever way the two first characters go, `d` is one edit away from being left over
    have hadd : firstCharDistance s (d :: t) ≤ firstCharDistance s t + 1 := by
      rw [firstCharDistance_comm s (d :: t), firstCharDistance_comm s t]
      exact firstCharDistance_cons_le d t s
    rw [firstCharDistance]
    omega

/-- What an edit can do to the distance, it can do behind a common first character. -/
theorem firstCharDistance_cons_le_cons {s t : List Char} (a : Char)
    (h : ∀ u, firstCharDistance s u ≤ firstCharDistance t u + 1) (u : List Char) :
    firstCharDistance (a :: s) u ≤ firstCharDistance (a :: t) u + 1 := by
  induction u with
  | nil =>
    have hnil := h []
    rw [firstCharDistance_nil_right, firstCharDistance_nil_right] at hnil ⊢
    simp only [List.length_cons]
    omega
  | cons d u ih =>
    have hremoved := h (d :: u)
    have hkept := h u
    rw [firstCharDistance, firstCharDistance]
    omega

/-- If one text is at most one edit farther from everything than another, so it is behind the same
beginning. -/
theorem firstCharDistance_append_le_append {s t : List Char}
    (h : ∀ u, firstCharDistance s u ≤ firstCharDistance t u + 1) (before u : List Char) :
    firstCharDistance (before ++ s) u ≤ firstCharDistance (before ++ t) u + 1 := by
  induction before generalizing u with
  | nil => exact h u
  | cons a before ih => exact firstCharDistance_cons_le_cons a ih u

/-- An edit takes at most one from the distance to any text. -/
theorem Edit.firstCharDistance_le {s t : List Char} (h : Edit s t) (u : List Char) :
    firstCharDistance s u ≤ firstCharDistance t u + 1 := by
  cases h with
  | insert before after c =>
    exact firstCharDistance_append_le_append (firstCharDistance_le_cons c after) before u
  | delete before after c =>
    exact firstCharDistance_append_le_append (firstCharDistance_cons_le c after) before u
  | @substitute before after c d hne =>
    refine firstCharDistance_append_le_append (fun u => ?_) before u
    -- the two first characters cost the same but where one of them is kept
    induction u with
    | nil => simp [firstCharDistance_nil_right]
    | cons e u ih =>
      rw [firstCharDistance, firstCharDistance]
      split <;> split <;> omega

/-- No sequence of edits is shorter than the distance. -/
theorem Edits.firstCharDistance_le {n : Nat} {s t : List Char} (h : Edits n s t) :
    firstCharDistance s t ≤ n := by
  induction h with
  | none s => rw [firstCharDistance_self]
  | next first _ ih => exact (first.firstCharDistance_le _).trans (Nat.add_le_add_right ih 1)

/-- Some sequence of edits is as long as the distance. -/
theorem edits_firstCharDistance (s t : List Char) : Edits (firstCharDistance s t) s t := by
  fun_induction firstCharDistance s t with
  | case1 t => exact edits_insert_all t
  | case2 c s => exact (edits_insert_all (c :: s)).symm
  | case3 c s d t ihremoved ihadded ihkept =>
    have hremove : Edits (firstCharDistance s (d :: t) + 1) (c :: s) (d :: t) :=
      .next (.delete [] s c) ihremoved
    have hadd : Edits (firstCharDistance (c :: s) t + 1) (c :: s) (d :: t) :=
      ihadded.concat (.insert [] t d)
    have hkeep : Edits (firstCharDistance s t + if c = d then 0 else 1) (c :: s) (d :: t) := by
      by_cases hcd : c = d
      · subst hcd
        rw [if_pos rfl]
        exact ihkept.cons c
      · rw [if_neg hcd]
        exact .next (.substitute [] s hcd) (ihkept.cons d)
    exact edits_min (edits_min hremove hadd) hkeep

end ProximityQuery
