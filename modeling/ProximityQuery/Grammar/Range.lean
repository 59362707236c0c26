import ProximityQuery.Grammar.Builder
import ProximityQuery.Grammar.Word

/-!
# Ranges

A range has two bounds with `TO` between them, in square brackets on a side that includes its bound
and in braces on a side that does not. A bound is a run of characters or a text in quotes, in which
nothing is escaped; a lone star leaves its side open, in quotes as well.
-/

namespace ProximityQuery.Grammar

/-- Whether a character belongs to a bound without quotes. -/
def isBareBound (c : Char) : Bool :=
  !(isBlank c || c = ']' || c = '}')

/-- The bound that a text stands for. -/
def boundOf (text : List Char) : Option String :=
  if text = ['*'] then none else some (String.ofList text)

/-- Reads a bound. -/
def readBound (s : List Char) : Except Failure (Option String × List Char) :=
  let accept (text rest : List Char) : Except Failure (Option String × List Char) :=
    if text.isEmpty then .error { cause := .emptyBound, unread := s }
    else .ok (boundOf text, rest)
  match s with
  | '"' :: inside =>
    match inside.dropWhile (· ≠ '"') with
    | [] => .error { cause := .unterminatedBound, unread := s }
    | _ :: rest => accept (inside.takeWhile (· ≠ '"')) rest
  | _ => accept (s.takeWhile isBareBound) (s.dropWhile isBareBound)

/-- Reads the interval at the head of `s`, whose opening bracket has the text `inside` after it. -/
def readInterval (includesLower : Bool) (s inside : List Char) :
    Except Failure (Interval × List Char) := do
  let (lower, rest) ← readBound (skipBlanks inside)
  let rest := skipBlanks rest
  let some rest := keyword? ['T', 'O'] rest | .error { cause := .missingTo, unread := rest }
  let (upper, rest) ← readBound (skipBlanks rest)
  match skipBlanks rest with
  | ']' :: rest => .ok ({ lower, upper, includesLower, includesUpper := true }, rest)
  | '}' :: rest => .ok ({ lower, upper, includesLower, includesUpper := false }, rest)
  | _ => .error { cause := .unterminatedRange, unread := s }

/-- Reads the range at the head of `s`, whose opening bracket has the text `inside` after it. -/
def readRange {m : Type → Type} [Monad m] {α : Type} (b : Builder m α) (field : String)
    (includesLower : Bool) (s inside : List Char) : ExceptT Failure m (α × List Char) := do
  let (interval, rest) ← readInterval includesLower s inside
  let clause ← b.multiTerm field (.range interval)
  pure (clause, rest)

end ProximityQuery.Grammar
