import ProximityQuery.Decimal.Numeral
import ProximityQuery.Json.Basic

/-!
# JSON numbers

The literals that are numbers, and what they are worth: an optional minus sign, a whole number
without needless zeros, and optionally places after a point and a power of ten.
-/

namespace ProximityQuery.Json

/-- What a number literal is worth: a sign and a natural number times a power of ten. -/
structure Numeral where
  negative : Bool
  mantissa : Nat
  exponent : Int
deriving DecidableEq, Repr

/-- The places after the point, if there is one, and the text after them. -/
def places? : List Char → Option (List Char × List Char)
  | '.' :: s =>
    if (s.takeWhile Char.isDigit).isEmpty then none
    else some (s.takeWhile Char.isDigit, s.dropWhile Char.isDigit)
  | s => some ([], s)

/-- The power of ten at the end of a literal, zero if none is written. -/
def exponent? : List Char → Option Int
  | [] => some 0
  | e :: s =>
    if e = 'e' ∨ e = 'E' then
      match s with
      | '-' :: digits => (Decimal.natural? digits).map fun n => -(n : Int)
      | '+' :: digits => (Decimal.natural? digits).map fun n => (n : Int)
      | digits => (Decimal.natural? digits).map fun n => (n : Int)
    else none

/-- The worth of a literal without its sign. -/
def magnitude? (negative : Bool) (s : List Char) : Option Numeral := do
  let whole := s.takeWhile Char.isDigit
  if whole.isEmpty ∨ (whole.head? = some '0' ∧ whole.length ≠ 1) then none
  else
    let (places, rest) ← places? (s.dropWhile Char.isDigit)
    let power ← exponent? rest
    let mantissa ← Decimal.natural? (whole ++ places)
    pure { negative, mantissa, exponent := power - places.length }

/-- The worth of a number literal. -/
def numeral? : List Char → Option Numeral
  | '-' :: s => magnitude? true s
  | s => magnitude? false s

/-- The nearest double-precision number, infinite when the numeral is too large. -/
def Numeral.toFloat (n : Numeral) : Float :=
  let magnitude := Float.ofScientific n.mantissa (n.exponent < 0) n.exponent.natAbs
  if n.negative then -magnitude else magnitude

/-- The nearest double-precision number to a number. -/
def float? : Json → Option Float
  | .number literal => (numeral? literal.toList).map Numeral.toFloat
  | _ => none

/-- A natural number, written without a sign, a point or a power of ten. -/
def nat? : Json → Option Nat
  | .number literal => Decimal.natural? literal.toList
  | _ => none

end ProximityQuery.Json
