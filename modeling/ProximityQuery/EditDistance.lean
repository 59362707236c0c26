/-!
# Edit distance

The least number of insertions, deletions and substitutions of single characters that turn one text
into another. Row `i` of the table holds the distances of the first `i` characters of the one text
to every beginning of the other. Two rows are kept: the row that is complete, and the row that is
filled from it, place by place from the left, over the numbers of an earlier row.
-/

namespace ProximityQuery.EditDistance

/-- The two rows that are kept, with a place for every beginning of a text of `n` characters. -/
structure Rows (n : Nat) where
  complete : Vector Nat (n + 1)
  filling : Vector Nat (n + 1)

namespace Rows

variable {m n : Nat}

/-- The rows at the start: the empty text is as far from a beginning as that is long. -/
def start (n : Nat) : Rows n :=
  ⟨Vector.range (n + 1), Vector.replicate (n + 1) 0⟩

/-- Fills the place behind place `j`, where the one text has `c` and the other has `d`. -/
def fillPlace (c d : Char) (j : Nat) (hj : j < n) (r : Rows n) : Rows n :=
  let removed := r.complete[j + 1] + 1
  let added := r.filling[j] + 1
  let kept := r.complete[j] + if c = d then 0 else 1
  { r with filling := r.filling.set (j + 1) (min (min removed added) kept) }

/-- Fills row `i`, whose last character is `c`, against a text. -/
def fill (other : Vector Char n) (i : Nat) (c : Char) (r : Rows n) : Rows n :=
  n.fold (fun j hj => fillPlace c other[j] j hj) { r with filling := r.filling.set 0 i }

/-- The row that has been filled becomes the complete one. -/
def swap (r : Rows n) : Rows n :=
  ⟨r.filling, r.complete⟩

/-- The rows after all characters of a text. -/
def after (text : Vector Char m) (other : Vector Char n) : Rows n :=
  m.fold (fun i hi r => (r.fill other (i + 1) text[i]).swap) (start n)

end Rows

end ProximityQuery.EditDistance

namespace ProximityQuery

/-- The edit distance of two texts, counted in characters. -/
def editDistance (s t : String) : Nat :=
  let text := s.toList.toArray
  let other := t.toList.toArray
  if text.isEmpty then other.size
  else if other.isEmpty then text.size
  else (EditDistance.Rows.after text.toVector other.toVector).complete[other.size]

end ProximityQuery
