import ProximityQuery.Term

/-!
# Positional clauses

Clauses that match at positions of a document: a term, clauses near one another, alternatives at one
position, and a clause except where another matches. The empty alternation matches nothing and
adds nothing; the never-matching term of a field matches nothing but holds its position.
-/

namespace ProximityQuery

/-- A clause that matches at positions. -/
inductive Positional
  | term (t : Term)
  /-- All clauses, with at most `slop` positions between them, in the given order if asked. -/
  | near (clauses : List Positional) (slop : UInt32) (inOrder : Bool)
  /-- Any of the clauses. -/
  | or (clauses : List Positional)
  /-- The first clause, except where the second matches. -/
  | not (included excluded : Positional)
deriving Repr

/-- What makes the clause for a word of a phrase, from its field and its text. -/
abbrev LeafFactory := (field text : String) → Positional

namespace Positional

/-- Induction over positional clauses, with one hypothesis for every clause of a list. -/
@[elab_as_elim, induction_eliminator]
theorem ind {motive : Positional → Prop} (term : ∀ t, motive (.term t))
    (near : ∀ clauses slop inOrder, (∀ c ∈ clauses, motive c) →
      motive (.near clauses slop inOrder))
    (or : ∀ clauses, (∀ c ∈ clauses, motive c) → motive (.or clauses))
    (not : ∀ included excluded, motive included → motive excluded →
      motive (.not included excluded))
    (clause : Positional) : motive clause :=
  match clause with
  | .term t => term t
  | .near clauses slop inOrder => near clauses slop inOrder fun c _ => ind term near or not c
  | .or clauses => or clauses fun c _ => ind term near or not c
  | .not included excluded =>
    not included excluded (ind term near or not included) (ind term near or not excluded)
termination_by sizeOf clause
decreasing_by
  · have hlt := List.sizeOf_lt_of_mem ‹c ∈ clauses›
    simp only [Positional.near.sizeOf_spec]
    omega
  · have hlt := List.sizeOf_lt_of_mem ‹c ∈ clauses›
    simp only [Positional.or.sizeOf_spec]
    omega
  · simp only [Positional.not.sizeOf_spec]
    omega
  · simp only [Positional.not.sizeOf_spec]
    omega

/-- The text of the term that no document has. -/
def neverText : String := "\x00never-match: no terms expanded\x00"

/-- The term of a field that no document has. -/
def never (field : String) : Positional :=
  .term { field, text := neverText }

/-- The alternation of nothing. -/
def empty : Positional := .or []

/-- Whether the clause is the alternation of nothing. -/
def isEmpty : Positional → Bool
  | .or [] => true
  | _ => false

/-- Whether the clause is the never-matching term of some field. -/
def isNever : Positional → Bool
  | .term t => t.text = neverText
  | _ => false

mutual

/-- The field of the first term, if there is one. An excluded clause is not looked at. -/
def field? : Positional → Option String
  | .term t => some t.field
  | .near clauses _ _ => fieldOfFirst? clauses
  | .or clauses => fieldOfFirst? clauses
  | .not included _ => included.field?

/-- The field of the first clause that has one. -/
def fieldOfFirst? : List Positional → Option String
  | [] => none
  | clause :: rest => clause.field?.or (fieldOfFirst? rest)

end

/-- Sets the boost of a term; any other clause has none of its own and stays as it is. -/
def setBoost (boost : Float32) : Positional → Positional
  | .term t => .term { t with boost }
  | clause => clause

/-- The boost of a term, and one for any other clause. -/
def boost : Positional → Float32
  | .term t => t.boost
  | _ => 1

mutual

/-- Whether two clauses are alike, boosts being compared as numbers. -/
def alike : Positional → Positional → Bool
  | .term t, .term u => t.field = u.field && t.text = u.text && t.boost == u.boost
  | .near clauses slop inOrder, .near others slop' inOrder' =>
    allAlike clauses others && slop = slop' && inOrder = inOrder'
  | .or clauses, .or others => allAlike clauses others
  | .not included excluded, .not included' excluded' =>
    included.alike included' && excluded.alike excluded'
  | _, _ => false

/-- Whether two lists of clauses are alike, one by one. -/
def allAlike : List Positional → List Positional → Bool
  | [], [] => true
  | clause :: rest, other :: others => clause.alike other && allAlike rest others
  | _, _ => false

end

/-- The clause for a word as it is: a term with a boost of one. -/
def plainTerm : LeafFactory := fun field text => .term { field, text }

end Positional

end ProximityQuery
