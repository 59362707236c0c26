import ProximityQuery.Anchor
import ProximityQuery.Expansion

/-!
# Resolution

The second reading of a phrase: its raw text is read as a query about its field. Every clause has to
be about that field, which is checked before anything else; a construct that stands for many terms
is expanded, its pattern compiled before that, and a phrase inside the phrase is refused. An
expansion that makes up the whole phrase still fills one position.
-/

namespace ProximityQuery

/-- How constructs that stand for many terms are dealt with. -/
inductive MultiTermMode
  /-- They are kept as they are. -/
  | keep
  /-- They become the terms they stand for. -/
  | expand
deriving DecidableEq, Repr

/-- Refuses a construct that stands for many terms where it is not to be expanded. -/
def requireExpansion (mode : MultiTermMode) (which : MultiTerm) : Except QueryError Unit :=
  match mode with
  | .expand => .ok ()
  | .keep => .error (.unsupportedClause (.unexpanded which.kind))

/-- Reads the constructs of a phrase about `anchorField`. The state says whether the clause built
last is an expansion. -/
def resolveBuilder (mode : MultiTermMode) (anchorField : String) (regex : Regex.Compiler)
    (dictionary : Dictionary) (maxExpansions : Nat) :
    Builder (StateT Bool (Except QueryError)) ClauseTree where
  term field text := do
    requireField field anchorField
    set false
    pure (.term { field, text })
  multiTerm field which := do
    requireField field anchorField
    requireExpansion mode which
    let terms ← dictionary.expand regex field which maxExpansions
    set true
    pure (.anyOf (terms.map fun text => { field, text }))
  phrase field _ _ := do
    requireField field anchorField
    throw (.unsupportedClause .nestedPhrase)
  boolean clauses := do
    set false
    pure (.composite clauses)
  boost tree factor := pure (tree.scale factor)

/-- Reads the raw text of a phrase about a field. -/
def resolvePhrase (d : Grammar.Dialect) (regex : Regex.Compiler) (dictionary : Dictionary)
    (maxExpansions : Nat) (field rawText : String) : Except QueryError ClauseTree := do
  let builder := resolveBuilder .expand field regex dictionary maxExpansions
  let (outcome, lastWasExpansion) ← (builder.ofText d field rawText).run false
  match outcome with
  | .error m => .error (.malformed m)
  | .ok tree => .ok (if lastWasExpansion then .composite [(tree, .should)] else tree)

end ProximityQuery
