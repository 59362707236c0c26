import ProximityQuery.Error

/-!
# Aggregates

Weighted positional clauses of one field, collected one by one. Terms of the same field and text
share an entry, whose weight is the sum of theirs; entries stand in the order of their first
addition. Weights are of any type with an addition: the rewriter sums them in double precision and
narrows each sum once, when the aggregate is built.
-/

namespace ProximityQuery

/-- The clauses collected for a field, each with its weight so far. -/
structure Aggregate (W : Type) where
  field : String
  entries : List (Positional × W) := []
deriving Repr

namespace Aggregate

variable {W : Type} [Add W]

/-- Whether two clauses are terms of the same field and text. -/
def sameTerm : Positional → Positional → Bool
  | .term t, .term u => t.field = u.field && t.text = u.text
  | _, _ => false

/-- Adds a weight to the entry of the same term, or makes an entry at the end. -/
def addEntry (clause : Positional) (weight : W) : List (Positional × W) → List (Positional × W)
  | [] => [(clause, weight)]
  | (other, sum) :: rest =>
    if sameTerm other clause then (other, sum + weight) :: rest
    else (other, sum) :: addEntry clause weight rest

/-- Adds a positional clause; the alternation of nothing adds nothing. -/
def add (a : Aggregate W) (clause : Positional) (weight : W) : Aggregate W :=
  if clause.isEmpty then a else { a with entries := addEntry clause weight a.entries }

/-- Adds the clause that the factory makes for a word of the field. -/
def addTerm (a : Aggregate W) (factory : LeafFactory) (text : String) (weight : W) : Aggregate W :=
  a.add (factory a.field text) weight

/-- Adds a query, which has to be a positional clause. -/
def addQuery (a : Aggregate W) (query : Query) (weight : W) : Except QueryError (Aggregate W) :=
  match query with
  | .positional clause => .ok (a.add clause weight)
  | other => .error (.notPositional other.kind)

/-- The number of entries. -/
def count (a : Aggregate W) : Nat := a.entries.length

/-- Drops every entry. -/
def clear (a : Aggregate W) : Aggregate W := { a with entries := [] }

/-- The clauses with their weights as boosts: alone if there is one, and otherwise as alternatives. -/
def build (narrow : W → Float32) (a : Aggregate W) : Positional :=
  match a.entries.map fun (clause, weight) => clause.setBoost (narrow weight) with
  | [clause] => clause
  | clauses => .or clauses

omit [Add W] in
/-- What is built of a sole entry is its clause, and of any other number an alternation of them all. -/
theorem build_cases (narrow : W → Float32) (a : Aggregate W) :
    (∃ e, a.entries = [e] ∧ a.build narrow = e.1.setBoost (narrow e.2)) ∨
      a.entries.length ≠ 1 ∧
        a.build narrow = .or (a.entries.map fun e => e.1.setBoost (narrow e.2)) := by
  rw [build]
  match a.entries with
  | [] => exact .inr ⟨by simp, rfl⟩
  | [e] => exact .inl ⟨e, rfl, rfl⟩
  | _ :: _ :: _ => exact .inr ⟨by simp, rfl⟩

end Aggregate

end ProximityQuery
