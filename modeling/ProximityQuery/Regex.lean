/-!
# Packages of regular expressions

What is asked of a package before any text is matched: how it escapes a character, and whether it
compiles an expression. A package may refuse an expression, say because the compiled form of it
would be too large, and then it says why.
-/

namespace ProximityQuery.Regex

/-- The characters that stand for themselves only behind a backslash. -/
def isMeta (c : Char) : Bool :=
  c ∈ ['\\', '.', '+', '*', '?', '(', ')', '|', '[', ']', '\x7b', '\x7d', '^', '$', '#', '&', '-',
    '~']

/-- A backslash goes before a character that needs one. -/
def escape (c : Char) : String :=
  String.ofList (if isMeta c then ['\\', c] else [c])

/-- What a package does with an expression before it looks for matches. Unless more is known of it, it
escapes as above and refuses nothing. -/
structure Compiler where
  /-- How a character is written that stands for itself. -/
  escape : Char → String := Regex.escape
  /-- Why an expression is refused, if it is. -/
  refusal? : (expression : String) → Option String := fun _ => none

end ProximityQuery.Regex
