import ProximityQuery.Decimal.Numeral
import ProximityQuery.Grammar.Failure

/-!
# Quantities

The numbers after `^` and `~`. A number takes every digit and point that follows, and is then read
as a whole.
-/

namespace ProximityQuery.Grammar

/-- The characters that a number takes. -/
def isNumeral (c : Char) : Bool :=
  c.isDigit || c = '.'

/-- Whether a text starts with a digit. -/
def startsWithDigit : List Char → Bool
  | [] => false
  | c :: _ => c.isDigit

/-- Reads a number with `value?`, which decides what counts as one. -/
def readQuantity {α : Type} (what : Quantity) (value? : List Char → Option α) (s : List Char) :
    Except Failure (α × List Char) :=
  match value? (s.takeWhile isNumeral) with
  | some x => .ok (x, s.dropWhile isNumeral)
  | none => .error { cause := .invalidNumber what, unread := s }

/-- Reads a whole number if a digit comes next, and otherwise takes `default` and reads nothing. -/
def readOptional (what : Quantity) (default : UInt32) (s : List Char) :
    Except Failure (UInt32 × List Char) :=
  if startsWithDigit s then readQuantity what Decimal.uint32? s else .ok (default, s)

end ProximityQuery.Grammar
