import ProximityQuery.Decimal.Layout
import ProximityQuery.Query

/-!
# Queries as text

A query on one line, in the notation that search engines use for positional queries. Boosts are
written positionally, without a point when they are whole, and left out on a leaf when they are one.
-/

namespace ProximityQuery

/-- Boosts in text are always positional; a half of the last digit goes up. -/
def textLayout : Decimal.Layout where
  positional _ := true
  wholeMark := []
  halfRule := .up

/-- A boost as text. -/
def boostText (boost : Float32) : String :=
  match Binary32.ofFloat32 boost with
  | .nan => "NaN"
  | .infinite negative => if negative then "-inf" else "inf"
  | .zero _ | .finite .. => textLayout.write boost

/-- The boost after a leaf, nothing when it is one. -/
def boostSuffix (boost : Float32) : String :=
  if boost == 1 then "" else "^" ++ boostText boost

/-- A term as text. -/
def Term.toText (t : Term) : String :=
  t.field ++ ":" ++ t.text ++ boostSuffix t.boost

/-- An interval as text, an open side as a star. -/
def Interval.toText (i : Interval) : String :=
  (if i.includesLower then "[" else "\x7b") ++ i.lower.getD "*" ++ " TO " ++ i.upper.getD "*" ++
    (if i.includesUpper then "]" else "\x7d")

/-- A construct that stands for many terms as text. -/
def MultiTerm.toText : MultiTerm → String
  | .wildcard pattern => pattern
  | .fuzzy text maxEdits => text ++ "~" ++ toString maxEdits.toNat
  | .range interval => interval.toText

namespace Positional

mutual

/-- A positional clause as text. -/
def toText : Positional → String
  | .term t => t.toText
  | .near clauses slop inOrder =>
    "spanNear([" ++ ", ".intercalate (toTexts clauses) ++ "], " ++ toString slop.toNat ++ ", " ++
      (if inOrder then "true" else "false") ++ ")"
  | .or clauses => "spanOr([" ++ ", ".intercalate (toTexts clauses) ++ "])"
  | .not included excluded => "spanNot(" ++ included.toText ++ ", " ++ excluded.toText ++ ")"

/-- Positional clauses as texts. -/
def toTexts : List Positional → List String
  | [] => []
  | clause :: rest => clause.toText :: toTexts rest

end

end Positional

namespace Query

mutual

/-- A query as text. -/
def toText : Query → String
  | .term t => t.toText
  | .boolean children => "(" ++ " ".intercalate (toTexts children) ++ ")"
  | .multiTerm field which boost => field ++ ":" ++ which.toText ++ boostSuffix boost
  | .boosted query boost => "(" ++ query.toText ++ ")^" ++ boostText boost
  | .phrase id => "<phrase #" ++ toString id ++ ">"
  | .positional clause => clause.toText

/-- The children of a boolean query as texts, each with its sign. -/
def toTexts : List (Query × Occur) → List String
  | [] => []
  | (child, occur) :: rest => (occur.sign ++ child.toText) :: toTexts rest

end

end Query

end ProximityQuery
