import ProximityQuery.Grammar.Text
import ProximityQuery.Query

/-!
# Errors

Why a query cannot be parsed or rewritten, as causes, and the wording of each.
-/

namespace ProximityQuery

/-- A clause that stands where it cannot be dealt with. -/
inductive Unsupported
  /-- A kind of query that has no clause tree. -/
  | kind (k : Kind)
  | nestedPhrase
  /-- A construct of a phrase that stands for many terms and is not to be expanded. -/
  | unexpanded (k : Kind)
  | unknownPhrase (id : Nat)
  | unresolvedPhrase (id : Nat)
deriving DecidableEq, Repr

/-- The wording of what is unsupported. -/
def Unsupported.message : Unsupported → String
  | .kind k => k.name
  | .nestedPhrase => "phrase nested in phrase"
  | .unexpanded k => "opaque " ++ k.name ++ " inside phrase"
  | .unknownPhrase id => s!"unknown phrase {id}"
  | .unresolvedPhrase id => s!"unresolved phrase {id}"

/-- Why a query cannot be parsed or rewritten. -/
inductive QueryError
  /-- A clause of a phrase is about another field than the phrase. -/
  | fieldMismatch (candidate anchor : String)
  | unsupportedClause (what : Unsupported)
  /-- A query was added to an aggregate that is no positional clause. -/
  | notPositional (k : Kind)
  | malformed (m : Malformed)
  /-- A construct stands for more terms than the limit allows. -/
  | tooManyExpansions (field : String) (limit : Nat)
  /-- The expression of a pattern is refused, with what the package says of it. -/
  | invalidPattern (pattern message : String)
deriving DecidableEq, Repr

/-- The wording of an error. -/
def QueryError.message : QueryError → String
  | .fieldMismatch candidate anchor =>
    "clause field `" ++ candidate ++ "` does not match phrase field `" ++ anchor ++ "`"
  | .unsupportedClause what => "unsupported clause: " ++ what.message
  | .notPositional k => "expected a positional clause, got " ++ k.name
  | .malformed m => "syntax error at byte " ++ toString m.position ++ ": " ++ m.cause.message
  | .tooManyExpansions field limit =>
    "expansion on field `" ++ field ++ "` exceeded " ++ toString limit ++ " terms"
  | .invalidPattern pattern message => "invalid wildcard pattern `" ++ pattern ++ "`: " ++ message

/-- Refuses a field other than that of the phrase. -/
def requireField (candidate anchor : String) : Except QueryError Unit :=
  if candidate = anchor then .ok () else .error (.fieldMismatch candidate anchor)

end ProximityQuery
