/-!
# Failures of the grammar

Why a text is not a query, and where. A failure is located by the text that was still unread, so a
reader needs no count of what it has read; the position in bytes follows from the whole text.
-/

namespace ProximityQuery

/-- The numbers of the query language. -/
inductive Quantity
  | boost
  | slop
  | editDistance
deriving DecidableEq, Repr

/-- The name of a quantity in a message. -/
def Quantity.name : Quantity → String
  | .boost => "boost"
  | .slop => "slop"
  | .editDistance => "edit distance"

/-- What is wrong with a query text. -/
inductive Malformation
  | unexpectedClose
  | missingClause
  | groupsTooDeep
  | missingClose
  | unterminatedPhrase
  | missingTo
  | unterminatedRange
  | unterminatedBound
  | emptyBound
  | missingTerm
  | missingValue
  | fieldsTooDeep
  | invalidNumber (what : Quantity)
deriving DecidableEq, Repr

/-- The wording of a malformation. -/
def Malformation.message : Malformation → String
  | .unexpectedClose => "unexpected `)`"
  | .missingClause => "expected clause after conjunction"
  | .groupsTooDeep => "groups nested too deeply"
  | .missingClose => "missing `)`"
  | .unterminatedPhrase => "unterminated phrase"
  | .missingTo => "expected `TO` in range"
  | .unterminatedRange => "unterminated range"
  | .unterminatedBound => "unterminated range bound"
  | .emptyBound => "empty range bound"
  | .missingTerm => "expected term"
  | .missingValue => "expected value after field"
  | .fieldsTooDeep => "fields nested too deeply"
  | .invalidNumber what => "invalid " ++ what.name

/-- A place where reading stopped. -/
structure Failure where
  /-- What is wrong there. -/
  cause : Malformation
  /-- The text from there to the end. -/
  unread : List Char
deriving DecidableEq, Repr

/-- The number of bytes of a text in UTF-8. -/
def utf8Length : List Char → Nat
  | [] => 0
  | c :: s => c.utf8Size + utf8Length s

/-- The bytes of two texts in a row are those of the first and those of the second. -/
theorem utf8Length_append (s t : List Char) :
    utf8Length (s ++ t) = utf8Length s + utf8Length t := by
  induction s with
  | nil => simp [utf8Length]
  | cons c s ih =>
    simp only [List.cons_append, utf8Length, ih]
    omega

/-- The number of bytes of `whole` before the failure. -/
def Failure.position (f : Failure) (whole : List Char) : Nat :=
  utf8Length whole - utf8Length f.unread

/-- When the unread text is the end of the whole one, the position counts the bytes before it. -/
theorem Failure.position_append (f : Failure) (read : List Char) :
    f.position (read ++ f.unread) = utf8Length read := by
  simp [position, utf8Length_append]

end ProximityQuery
