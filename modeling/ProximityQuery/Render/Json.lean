import ProximityQuery.Decimal.Layout
import ProximityQuery.Json.Printer
import ProximityQuery.Query

/-!
# Queries as JSON

Each tree as a JSON value: an object with one member, named for the kind of the node. An infinite
or undefined boost has no number in JSON and becomes null.
-/

namespace ProximityQuery

/-- Boosts in JSON are positional from 0.000001 to below ten million million, whole ones with one
place; a half of the last digit goes to the even digit. -/
def jsonLayout : Decimal.Layout where
  positional exponent := -6 ≤ exponent && exponent ≤ 12
  wholeMark := ['.', '0']
  halfRule := .toEven

namespace Json

/-- A boost, null unless it is finite. -/
def boost (boost : Float32) : Json :=
  if (Binary32.ofFloat32 boost).isFinite then .number (jsonLayout.write boost) else .null

/-- A text, null when there is none. -/
def optionalText (s : Option String) : Json := (s.map text).getD .null

/-- An object with one member. -/
def single (name : String) (value : Json) : Json := .ofMembers [(name, value)]

end Json

/-- The name of a part that a clause plays. -/
def Occur.toJson : Occur → Json
  | .must => .text "must"
  | .mustNot => .text "must_not"
  | .should => .text "should"

/-- The members of a term. -/
def Term.toJson (t : Term) : Json :=
  .ofMembers [("field", .text t.field), ("text", .text t.text), ("boost", .boost t.boost)]

namespace ClauseTree

mutual

/-- A clause tree as JSON. -/
def toJson : ClauseTree → Json
  | .term t => .single "term" t.toJson
  | .composite children => .single "composite" (.array (toJsons children))

/-- Each child with the part it plays. -/
def toJsons : List (ClauseTree × Occur) → List Json
  | [] => []
  | (child, occur) :: rest => .array [child.toJson, occur.toJson] :: toJsons rest

end

end ClauseTree

namespace Positional

mutual

/-- A positional clause as JSON. -/
def toJson : Positional → Json
  | .term t => .single "term" t.toJson
  | .near clauses slop inOrder =>
    .single "near" (.ofMembers
      [("clauses", .array (toJsons clauses)), ("slop", .nat slop.toNat), ("in_order", .bool inOrder)])
  | .or clauses => .single "or" (.array (toJsons clauses))
  | .not included excluded =>
    .single "not" (.ofMembers [("include", included.toJson), ("exclude", excluded.toJson)])

/-- Positional clauses as JSON. -/
def toJsons : List Positional → List Json
  | [] => []
  | clause :: rest => clause.toJson :: toJsons rest

end

end Positional

/-- A construct that stands for many terms as JSON, with its field and its boost. -/
def MultiTerm.toJson (field : String) (which : MultiTerm) (boost : Float32) : Json :=
  match which with
  | .wildcard pattern =>
    .single "wildcard" (.ofMembers
      [("field", .text field), ("pattern", .text pattern), ("boost", .boost boost)])
  | .fuzzy text maxEdits =>
    .single "fuzzy" (.ofMembers
      [("field", .text field), ("text", .text text), ("max_edits", .nat maxEdits.toNat),
        ("boost", .boost boost)])
  | .range interval =>
    .single "range" (.ofMembers
      [("field", .text field), ("lower", .optionalText interval.lower),
        ("upper", .optionalText interval.upper), ("include_lower", .bool interval.includesLower),
        ("include_upper", .bool interval.includesUpper), ("boost", .boost boost)])

namespace Query

mutual

/-- A query as JSON. -/
def toJson : Query → Json
  | .term t => .single "term" t.toJson
  | .boolean children => .single "boolean" (.array (toJsons children))
  | .multiTerm field which boost => which.toJson field boost
  | .boosted query boost =>
    .single "boosted" (.ofMembers [("query", query.toJson), ("boost", .boost boost)])
  | .phrase id => .single "phrase" (.nat id)
  | .positional clause => .single "positional" clause.toJson

/-- Each child of a boolean query with the part it plays. -/
def toJsons : List (Query × Occur) → List Json
  | [] => []
  | (child, occur) :: rest => .array [child.toJson, occur.toJson] :: toJsons rest

end

end Query

end ProximityQuery
