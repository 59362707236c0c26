import ProximityQuery.Term

/-!
# The parts that clauses play

The clauses of a level are written with signs before them and conjunctions between them. The sign
of a clause and the conjunction before it decide its part at first; the conjunction after it may
still change that, an `AND` making an optional clause required and, where clauses are required by
default, an `OR` making a required one optional. A prohibited clause stays prohibited.
-/

namespace ProximityQuery

/-- How clauses without a sign combine. -/
inductive Operator
  /-- They are optional. -/
  | or
  /-- They are required. -/
  | and
deriving DecidableEq, Repr

/-- A word between two clauses. -/
inductive Conjunction
  | and
  | or
deriving DecidableEq, Repr

/-- A sign before a clause. -/
inductive Modifier
  | required
  | prohibited
deriving DecidableEq, Repr

/-- What is written before a clause. -/
structure Mark where
  conjunction : Option Conjunction
  modifier : Option Modifier
deriving DecidableEq, Repr

namespace Mark

/-- Whether nothing is written before the clause. -/
def isBare (m : Mark) : Bool :=
  m.conjunction.isNone && m.modifier.isNone

/-- The part of a clause by what is written before it. -/
def occur (op : Operator) (m : Mark) : Occur :=
  match m.modifier with
  | some .prohibited => .mustNot
  | some .required => .must
  | none =>
    match op with
    | .or => if m.conjunction = some .and then .must else .should
    | .and => if m.conjunction = some .or then .should else .must

end Mark

/-- The part of a clause after the conjunction that follows it. -/
def Occur.revise (op : Operator) (next : Option Conjunction) (o : Occur) : Occur :=
  match next with
  | some .and => if o = .should then .must else o
  | some .or => if op = .and ∧ o = .must then .should else o
  | none => o

/-- The parts of a clause, so far `pending`, and of the clauses after it. -/
def occursAfter (op : Operator) (pending : Occur) : List Mark → List Occur
  | [] => [pending]
  | m :: ms => pending.revise op m.conjunction :: occursAfter op (m.occur op) ms

/-- The parts of the clauses of a level, from what is written before each. -/
def occurs (op : Operator) : List Mark → List Occur
  | [] => []
  | m :: ms => occursAfter op (m.occur op) ms

/-- There is one occur for the clause that is pending and one for each mark behind it. -/
theorem length_occursAfter (op : Operator) (pending : Occur) (ms : List Mark) :
    (occursAfter op pending ms).length = ms.length + 1 := by
  induction ms generalizing pending with
  | nil => rfl
  | cons m ms ih => simp [occursAfter, ih]

/-- Every clause gets one part. -/
theorem length_occurs (op : Operator) (ms : List Mark) : (occurs op ms).length = ms.length := by
  cases ms with
  | nil => rfl
  | cons m ms => simp [occurs, length_occursAfter]

end ProximityQuery
