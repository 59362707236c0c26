import ProximityQuery.Regex

/-!
# Wildcard patterns as regular expressions

The regular expression that a pattern is translated into, as it is written. A star becomes a dot
with a star, a question mark becomes a dot, and every other character is escaped. The expression
stands between the marks for the start and the end of a text. A pattern is refused when its
expression is.
-/

namespace ProximityQuery.Wildcard

/-- The expression of a pattern without the marks around it. A backslash at the very end is left
out. -/
def expressionBody (escape : Char → String) : List Char → List Char
  | [] => []
  | '*' :: s => '.' :: '*' :: expressionBody escape s
  | '?' :: s => '.' :: expressionBody escape s
  | ['\\'] => []
  | '\\' :: c :: s => (escape c).toList ++ expressionBody escape s
  | c :: s => (escape c).toList ++ expressionBody escape s

/-- The regular expression of a pattern, given how a single character is escaped. -/
def expression (escape : Char → String) (pattern : String) : String :=
  String.ofList ('^' :: expressionBody escape pattern.toList ++ ['$'])

/-- Why a package refuses the expression of a pattern, if it does. -/
def refusal? (regex : Regex.Compiler) (pattern : String) : Option String :=
  regex.refusal? (expression regex.escape pattern)

end ProximityQuery.Wildcard
