import ProximityQuery.ClauseTree
import ProximityQuery.Positional

/-!
# Queries

The tree of a whole query. A phrase is a placeholder with a number until it has been read on its
own, and a positional clause afterwards.
-/

namespace ProximityQuery

/-- A query. -/
inductive Query
  | term (t : Term)
  | boolean (children : List (Query × Occur))
  | multiTerm (field : String) (which : MultiTerm) (boost : Float32)
  | boosted (query : Query) (boost : Float32)
  /-- The place of a phrase, by its number. -/
  | phrase (id : Nat)
  | positional (clause : Positional)
deriving Repr

/-- The kinds of queries. -/
inductive Kind
  | term
  | boolean
  | wildcard
  | fuzzy
  | range
  | boosted
  | phrase
  | positional
deriving DecidableEq, Repr

/-- The name of a kind in a message. -/
def Kind.name : Kind → String
  | .term => "term"
  | .boolean => "boolean"
  | .wildcard => "wildcard"
  | .fuzzy => "fuzzy"
  | .range => "range"
  | .boosted => "boosted"
  | .phrase => "phrase placeholder"
  | .positional => "positional"

/-- The kind of a construct that stands for many terms. -/
def MultiTerm.kind : MultiTerm → Kind
  | .wildcard _ => .wildcard
  | .fuzzy _ _ => .fuzzy
  | .range _ => .range

namespace Query

/-- Induction over queries, with one hypothesis for every child. -/
@[elab_as_elim, induction_eliminator]
theorem ind {motive : Query → Prop} (term : ∀ t, motive (.term t))
    (boolean : ∀ children, (∀ c ∈ children, motive c.1) → motive (.boolean children))
    (multiTerm : ∀ field which boost, motive (.multiTerm field which boost))
    (boosted : ∀ query boost, motive query → motive (.boosted query boost))
    (phrase : ∀ id, motive (.phrase id)) (positional : ∀ clause, motive (.positional clause))
    (query : Query) : motive query :=
  match query with
  | .term t => term t
  | .boolean children =>
    boolean children fun c _ => ind term boolean multiTerm boosted phrase positional c.1
  | .multiTerm field which boost => multiTerm field which boost
  | .boosted query boost =>
    boosted query boost (ind term boolean multiTerm boosted phrase positional query)
  | .phrase id => phrase id
  | .positional clause => positional clause
termination_by sizeOf query
decreasing_by
  · have hlt := sizeOf_clause_lt ‹c ∈ children›
    simp only [Query.boolean.sizeOf_spec]
    omega
  · simp only [Query.boosted.sizeOf_spec]
    omega

/-- The kind of a query. -/
def kind : Query → Kind
  | .term _ => .term
  | .boolean _ => .boolean
  | .multiTerm _ which _ => which.kind
  | .boosted _ _ => .boosted
  | .phrase _ => .phrase
  | .positional _ => .positional

mutual

/-- Whether the place of a phrase is left anywhere. -/
def hasPlaceholders : Query → Bool
  | .phrase _ => true
  | .boolean children => anyHasPlaceholders children
  | .boosted query _ => query.hasPlaceholders
  | .term _ | .multiTerm _ _ _ | .positional _ => false

/-- Whether the place of a phrase is left in any of the children. -/
def anyHasPlaceholders : List (Query × Occur) → Bool
  | [] => false
  | (child, _) :: rest => child.hasPlaceholders || anyHasPlaceholders rest

end

/-- A list of children has placeholders when one of the children has. -/
theorem anyHasPlaceholders_eq_any (children : List (Query × Occur)) :
    anyHasPlaceholders children = children.any fun c => c.1.hasPlaceholders := by
  induction children with
  | nil => rfl
  | cons c rest ih => rw [anyHasPlaceholders, ih, List.any_cons]

end Query

end ProximityQuery
