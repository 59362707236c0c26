import ProximityQuery.Grammar.Clause

/-!
# Configuration

What the parsing of queries depends on besides the query, the dictionary and the factory of words.
-/

namespace ProximityQuery

/-- The configuration of a parser. -/
structure Config where
  /-- The field of clauses that name none. -/
  defaultField : String := "body"
  /-- Whether the words of a phrase have to come in order. -/
  inOrder : Bool := true
  /-- How clauses without a sign combine. -/
  defaultOperator : Operator := .or
  /-- The edit distance of a word with a bare tilde. -/
  fuzzyMaxEdits : UInt32 := 2
  /-- The number of terms that one construct of a phrase may stand for. -/
  maxExpansions : Nat := 1024
deriving DecidableEq, Repr

/-- The part of a configuration that the grammar depends on. -/
def Config.dialect (c : Config) : Grammar.Dialect where
  operator := c.defaultOperator
  fuzzyMaxEdits := c.fuzzyMaxEdits

end ProximityQuery
