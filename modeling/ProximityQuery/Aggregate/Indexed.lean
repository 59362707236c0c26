import ProximityQuery.Aggregate

/-!
# Aggregates with an index

An aggregate that knows where the entry of every term stands, so that an addition to a term goes to
its entry at once. The index is kept beside the entries, and every operation changes both.
-/

namespace ProximityQuery

/-- The field and the text of a term; any other clause has no key. -/
def Positional.key? : Positional → Option (String × String)
  | .term t => some (t.field, t.text)
  | _ => none

/-- The clauses collected for a field, and the places of the terms among them. -/
structure IndexedAggregate (W : Type) extends Aggregate W where
  /-- The place of the entry of each term, by the key of the term. -/
  places : List ((String × String) × Nat) := []
deriving Repr

namespace IndexedAggregate

variable {W : Type} [Add W]

/-- Adds a positional clause; the alternation of nothing adds nothing. -/
def add (a : IndexedAggregate W) (clause : Positional) (weight : W) : IndexedAggregate W :=
  if clause.isEmpty then a
  else
    match clause.key? with
    | none => { a with entries := a.entries ++ [(clause, weight)] }
    | some key =>
      match a.places.lookup key with
      | some place =>
        { a with entries := a.entries.modify place fun (clause, sum) => (clause, sum + weight) }
      | none =>
        { a with
          entries := a.entries ++ [(clause, weight)]
          places := (key, a.entries.length) :: a.places }

/-- Adds the clause that the factory makes for a word of the field. -/
def addTerm (a : IndexedAggregate W) (factory : LeafFactory) (text : String) (weight : W) :
    IndexedAggregate W :=
  a.add (factory a.field text) weight

/-- Adds a query, which has to be a positional clause. -/
def addQuery (a : IndexedAggregate W) (query : Query) (weight : W) :
    Except QueryError (IndexedAggregate W) :=
  match query with
  | .positional clause => .ok (a.add clause weight)
  | other => .error (.notPositional other.kind)

/-- Drops every entry. -/
def clear (a : IndexedAggregate W) : IndexedAggregate W :=
  { a with entries := [], places := [] }

end IndexedAggregate

end ProximityQuery
