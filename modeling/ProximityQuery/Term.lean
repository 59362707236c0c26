/-!
# Terms

The leaves of every tree of this library: a single term of a field with its boost, and the
constructs that stand for many terms of a field at once. `Occur` says what part a clause plays in a
boolean combination.
-/

namespace ProximityQuery

/-- The part a clause plays in a boolean combination. -/
inductive Occur
  /-- The clause is required. -/
  | must
  /-- The clause is prohibited. -/
  | mustNot
  /-- The clause is optional. -/
  | should
deriving DecidableEq, Repr

/-- Whether the clause is prohibited. -/
def Occur.isProhibited : Occur → Bool
  | .mustNot => true
  | .must | .should => false

theorem Occur.isProhibited_iff {o : Occur} : o.isProhibited = true ↔ o = .mustNot := by
  cases o <;> simp [isProhibited]

/-- The sign written before a clause: plus, minus, or nothing for an optional one. -/
def Occur.sign : Occur → String
  | .must => "+"
  | .mustNot => "-"
  | .should => ""

/-- A clause is smaller than the list of clauses it stands in. -/
theorem sizeOf_clause_lt {α : Type} [SizeOf α] {c : α × Occur} {clauses : List (α × Occur)}
    (h : c ∈ clauses) : sizeOf c.1 < sizeOf clauses := by
  have hmem := List.sizeOf_lt_of_mem h
  have hfst : sizeOf c.1 < sizeOf c := by
    cases c
    simp only [Prod.mk.sizeOf_spec]
    omega
  omega

/-- A single term of a field. -/
structure Term where
  field : String
  text : String
  boost : Float32 := 1
deriving DecidableEq, Repr

/-- Multiplies the boost of a term. -/
def Term.scale (t : Term) (factor : Float32) : Term :=
  { t with boost := t.boost * factor }

/-- An interval of texts in the order of their code points; an absent bound leaves its side open. -/
structure Interval where
  lower : Option String
  upper : Option String
  includesLower : Bool
  includesUpper : Bool
deriving DecidableEq, Repr

/-- Whether a text lies at or above the lower bound, strictly above it when the bound is excluded. -/
def Interval.reachesLower (i : Interval) (t : String) : Bool :=
  match i.lower with
  | none => true
  | some lower => if i.includesLower then lower ≤ t else lower < t

/-- Whether a text lies at or below the upper bound, strictly below it when the bound is excluded. -/
def Interval.staysBelowUpper (i : Interval) (t : String) : Bool :=
  match i.upper with
  | none => true
  | some upper => if i.includesUpper then t ≤ upper else t < upper

/-- Whether a text lies in the interval. -/
def Interval.contains (i : Interval) (t : String) : Bool :=
  i.reachesLower t && i.staysBelowUpper t

/-- A construct that stands for the terms of a field that fit it. -/
inductive MultiTerm
  /-- The terms that match a pattern with `*` and `?`. -/
  | wildcard (pattern : String)
  /-- The terms at most `maxEdits` edits away from a text. -/
  | fuzzy (text : String) (maxEdits : UInt32)
  /-- The terms in an interval. -/
  | range (interval : Interval)
deriving DecidableEq, Repr

end ProximityQuery
