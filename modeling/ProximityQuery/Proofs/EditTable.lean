import ProximityQuery.Proofs.EditSequences
import ProximityQuery.Proofs.Resolution

/-!
# The table of edit distances

The two rows that the edit distance is computed with are rows of the table of distances between
beginnings of the two texts. Filling a row reads places that hold the distances of shorter
beginnings only, so what an earlier row has left behind does not matter.
-/

namespace ProximityQuery

/-- What holds at the start of a bounded loop and is kept by each round holds at its end. -/
theorem fold_invariant {α : Type} {n : Nat} (f : (i : Nat) → i < n → α → α)
    (P : Nat → α → Prop) {init : α} (hinit : P 0 init)
    (hstep : ∀ (i : Nat) (hi : i < n) (a : α), P i a → P (i + 1) (f i hi a)) :
    P n (n.fold f init) := by
  induction n with
  | zero => exact hinit
  | succ n ih =>
    rw [Nat.fold_succ]
    exact hstep n (Nat.lt_succ_self n) _ (ih _ fun i hi a => hstep i (Nat.lt_succ_of_lt hi) a)

namespace EditDistance

variable {m n : Nat}

/-- The distance of the first `i` characters of a text to the first `j` of another. -/
def prefixDistance (text : Vector Char m) (other : Vector Char n) (i j : Nat) : Nat :=
  firstCharDistance (text.toList.take i).reverse (other.toList.take j).reverse

section

variable (text : Vector Char m) (other : Vector Char n)

/-- From the empty beginning, every character of the other one is inserted. -/
theorem prefixDistance_zero_left (j : Nat) (hj : j ≤ n) : prefixDistance text other 0 j = j := by
  simp [prefixDistance, firstCharDistance, hj]

/-- To the empty beginning, every character is deleted. -/
theorem prefixDistance_zero_right (i : Nat) (hi : i ≤ m) : prefixDistance text other i 0 = i := by
  simp [prefixDistance, firstCharDistance_nil_right, hi]

/-- The last characters of two beginnings are the first ones from behind. -/
theorem prefixDistance_succ_succ {i j : Nat} (hi : i < m) (hj : j < n) :
    prefixDistance text other (i + 1) (j + 1) =
      min (min (prefixDistance text other i (j + 1) + 1) (prefixDistance text other (i + 1) j + 1))
        (prefixDistance text other i j + if text[i] = other[j] then 0 else 1) := by
  have htext : (text.toList.take (i + 1)).reverse = text[i] :: (text.toList.take i).reverse := by
    rw [← List.take_append_getElem (by simpa using hi), List.reverse_append]
    simp
  have hother : (other.toList.take (j + 1)).reverse = other[j] :: (other.toList.take j).reverse := by
    rw [← List.take_append_getElem (by simpa using hj), List.reverse_append]
    simp
  simp only [prefixDistance]
  rw [htext, hother, firstCharDistance]

end

namespace Rows

variable {text : Vector Char m} {other : Vector Char n}

/-- The complete row is row `i` of the table. -/
def Holds (text : Vector Char m) (other : Vector Char n) (i : Nat) (r : Rows n) : Prop :=
  ∀ (k : Nat) (hk : k < n + 1), r.complete[k] = prefixDistance text other i k

/-- While row `i + 1` is filled up to place `j`, the complete row stays row `i`. -/
structure Filled (text : Vector Char m) (other : Vector Char n) (i j : Nat) (r : Rows n) :
    Prop where
  holds : r.Holds text other i
  filled : ∀ (k : Nat) (hk : k < n + 1), k ≤ j →
    r.filling[k] = prefixDistance text other (i + 1) k

/-- The first row counts the insertions. -/
theorem holds_start : (start n).Holds text other 0 := by
  intro k hk
  rw [prefixDistance_zero_left text other k (by omega)]
  exact Vector.getElem_range hk

/-- Filling one more place leaves the complete row and the places before it alone. -/
theorem Filled.fillPlace {i j : Nat} (hi : i < m) (hj : j < n) {r : Rows n}
    (h : r.Filled text other i j) :
    (r.fillPlace text[i] other[j] j hj).Filled text other i (j + 1) := by
  refine ⟨h.holds, fun k hk hkj => ?_⟩
  by_cases hnew : k = j + 1
  · -- the new place is made of the three places around it, which hold shorter distances
    subst hnew
    have hremoved := h.holds (j + 1) hk
    have hkept := h.holds j (by omega)
    have hadded := h.filled j (by omega) le_rfl
    rw [prefixDistance_succ_succ text other hi hj, ← hremoved, ← hkept, ← hadded]
    simp only [Rows.fillPlace, Vector.getElem_set_self]
  · have hold : k ≤ j := by omega
    rw [← h.filled k hk hold]
    exact Vector.getElem_set_ne (by omega) hk (Ne.symm hnew)

/-- A row is filled from its first place, a number of deletions, to its last. -/
theorem Holds.fill {i : Nat} (hi : i < m) {r : Rows n} (h : r.Holds text other i) :
    (r.fill other (i + 1) text[i]).Filled text other i n := by
  refine fold_invariant _ (Filled text other i) ⟨h, fun k hk hk0 => ?_⟩ ?_
  · obtain rfl := Nat.le_zero.mp hk0
    rw [prefixDistance_zero_right text other (i + 1) hi]
    exact Vector.getElem_set_self _
  · exact fun j hj r hr => hr.fillPlace hi hj

/-- A filled row is the next row of the table, whatever was in its place before. -/
theorem Holds.step {i : Nat} (hi : i < m) {r : Rows n} (h : r.Holds text other i) :
    (r.fill other (i + 1) text[i]).swap.Holds text other (i + 1) :=
  fun k hk => (h.fill hi).filled k hk (by omega)

/-- The complete row at the end is the last row of the table. -/
theorem holds_after (text : Vector Char m) (other : Vector Char n) :
    (after text other).Holds text other m :=
  fold_invariant _ (Holds text other) holds_start fun _ hi _ hr => hr.step hi

end Rows

end EditDistance

/-- The last place of the last row is the distance, read from behind. -/
theorem editDistance_eq (s t : String) :
    editDistance s t = firstCharDistance s.toList.reverse t.toList.reverse := by
  rw [editDistance]
  split
  next hempty =>
    have hs : s.toList = [] := by simpa using hempty
    simp [hs, firstCharDistance]
  next hs =>
    split
    next hempty =>
      have ht : t.toList = [] := by simpa using hempty
      simp [ht, firstCharDistance_nil_right]
    next ht =>
      have hlast := EditDistance.Rows.holds_after s.toList.toArray.toVector t.toList.toArray.toVector
        t.toList.toArray.size (Nat.lt_succ_self _)
      rw [hlast, EditDistance.prefixDistance]
      simp

/-- The edit distance is the length of a shortest sequence of edits. -/
theorem edits_editDistance (s t : String) : Edits (editDistance s t) s.toList t.toList := by
  have hreverse := (edits_firstCharDistance s.toList.reverse t.toList.reverse).reverse
  rwa [List.reverse_reverse, List.reverse_reverse, ← editDistance_eq] at hreverse

/-- No sequence of edits is shorter than the distance. -/
theorem Edits.editDistance_le {n : Nat} {s t : String} (h : Edits n s.toList t.toList) :
    editDistance s t ≤ n := by
  rw [editDistance_eq]
  exact h.reverse.firstCharDistance_le

/-- Few edits lead from one text to another just when the distance is small, in either direction. -/
theorem editDistance_le_iff {s t : String} {k : Nat} :
    editDistance s t ≤ k ↔ ∃ n ≤ k, Edits n t.toList s.toList := by
  constructor
  · intro h
    exact ⟨editDistance s t, h, (edits_editDistance s t).symm⟩
  · rintro ⟨n, hn, hedits⟩
    exact hedits.symm.editDistance_le.trans hn

/-- A fuzzy term stands for the terms that few enough edits of its text lead to. -/
theorem Dictionary.mem_selected_fuzzy_iff {d : Dictionary} {field text t : String} {k : UInt32} :
    t ∈ d.selected field (.fuzzy text k) ↔
      t ∈ d.terms field ∧ ∃ n ≤ k.toNat, Edits n text.toList t.toList := by
  rw [selected, List.mem_filter, MultiTerm.selects, decide_eq_true_iff, editDistance_le_iff]

/-- Some sequence of insertions, deletions and substitutions of single characters is as long as the
edit distance, and none is shorter. A fuzzy term is expanded to exactly the terms of the field that
at most as many edits lead to as it allows, in the order of the field, or it is refused because they
are more than the limit. No package of regular expressions has a say in that. -/
theorem editDistance_shortest (s t : String) (d : Dictionary) (regex : Regex.Compiler)
    (field : String) (k : UInt32) (limit : Nat) :
    Edits (editDistance s t) s.toList t.toList ∧
    (∀ n, Edits n s.toList t.toList → editDistance s t ≤ n) ∧
    ∃ reached : List String, reached.Sublist (d.terms field) ∧
      (∀ u, u ∈ reached ↔ u ∈ d.terms field ∧ ∃ n ≤ k.toNat, Edits n s.toList u.toList) ∧
      d.expand regex field (.fuzzy s k) limit =
        if reached.length ≤ limit then .ok reached else .error (.tooManyExpansions field limit) := by
  refine ⟨edits_editDistance s t, fun n h => h.editDistance_le,
    d.selected field (.fuzzy s k), List.filter_sublist, fun u => ?_, ?_⟩
  · exact Dictionary.mem_selected_fuzzy_iff
  · exact Dictionary.expand_eq_of_accepted rfl

/-- Three edits lead from one word to the other, and two do not. -/
theorem editDistance_shortest_of_kitten :
    Edits 3 "kitten".toList "sitting".toList ∧ ¬ Edits 2 "kitten".toList "sitting".toList := by
  obtain ⟨hedits, hleast, -⟩ := editDistance_shortest "kitten" "sitting" .empty {} "body" 2 0
  have hdistance : editDistance "kitten" "sitting" = 3 := by decide +kernel
  rw [hdistance] at hedits hleast
  refine ⟨hedits, fun htwo => ?_⟩
  have hle := hleast 2 htwo
  omega

end ProximityQuery
