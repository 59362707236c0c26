import ProximityQuery.Decimal.Binary32
import ProximityQuery.Decimal.Shortest

/-!
# Layouts of decimals

How the digits of a number become text. A layout says which powers of ten are written positionally,
what marks a whole number, and how two equally near digit strings are told apart; `Layout.write`
does the rest. Infinities and undefined numbers have no digits, so a layout has nothing to say of
them and they are written as the empty text.
-/

namespace ProximityQuery.Decimal

/-- The decisions of a number format. -/
structure Layout where
  /-- Whether a number whose first digit counts this power of ten is written positionally. -/
  positional : Int → Bool
  /-- What follows the digits of a whole number written positionally. -/
  wholeMark : List Char
  /-- Which of two equally near shortest decimals is written. -/
  halfRule : HalfRule

/-- The digits with the point at its place, filled up with zeros. -/
def Layout.positionally (l : Layout) (d : Decimal) : List Char :=
  if d.exponent < 0 then
    '0' :: '.' :: List.replicate (-d.exponent - 1).toNat '0' ++ d.digits
  else
    let whole := d.exponent.toNat + 1
    if d.digits.length ≤ whole then
      d.digits ++ List.replicate (whole - d.digits.length) '0' ++ l.wholeMark
    else
      d.digits.take whole ++ '.' :: d.digits.drop whole

/-- One digit before the point and the power of ten with its sign. -/
def scientifically (d : Decimal) : List Char :=
  let sign := if d.exponent < 0 then '-' else '+'
  let power := sign :: Nat.toDigits 10 d.exponent.natAbs
  match d.digits with
  | [] => []
  | [c] => c :: 'e' :: power
  | c :: rest => c :: '.' :: rest ++ 'e' :: power

/-- The text of a finite number. -/
def Layout.write (l : Layout) (x : Float32) : String :=
  let signed (negative : Bool) (cs : List Char) :=
    String.ofList (if negative then '-' :: cs else cs)
  match Binary32.ofFloat32 x with
  | .zero negative => signed negative ('0' :: l.wholeMark)
  | .finite negative m q =>
    let d := shortest l.halfRule m q
    signed negative (if l.positional d.exponent then l.positionally d else scientifically d)
  | .infinite _ | .nan => ""

end ProximityQuery.Decimal
