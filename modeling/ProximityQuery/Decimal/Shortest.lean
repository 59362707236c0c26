/-!
# Shortest decimals

The decimal with the fewest digits that still rounds to a given single-precision number. The
numbers that round to `m · 2 ^ q` form an interval around it; on the grid of decimals with one
digit, then two, and so on, only the two neighbours of the value have to be tried, and the first
grid with a neighbour inside the interval has the answer. Nine digits always suffice. Nothing is
claimed here of `m = 0`.
-/

namespace ProximityQuery

/-- Which of two equally near decimals is taken. -/
inductive HalfRule
  /-- The one whose last digit is even. -/
  | toEven
  /-- The larger one. -/
  | up
deriving DecidableEq, Repr

/-- A positive decimal: its digits, the first of them not zero, and the power of ten that the first
digit counts. -/
structure Decimal where
  digits : List Char
  exponent : Int
deriving DecidableEq, Repr

namespace Decimal

/-- A positive rational with the ends of the interval of rationals that are rounded to it. -/
structure Target where
  /-- Lower end, value and upper end over one denominator. -/
  lower : Nat
  value : Nat
  upper : Nat
  denominator : Nat
  /-- Whether the ends belong to the interval. -/
  closed : Bool

/-- The interval of `m · 2 ^ q`: half a unit to each side, except that the numbers below a power of
two lie twice as dense; the ends belong to it when `m` is even. -/
def Target.ofBinary (m : Nat) (q : Int) : Target :=
  let below := if m = 0x800000 && q ≠ -149 then 1 else 2
  let scale := Nat.pow 2 (q - 2).toNat
  { lower := (4 * m - below) * scale
    value := 4 * m * scale
    upper := (4 * m + 2) * scale
    denominator := Nat.pow 2 (2 - q).toNat
    closed := m % 2 = 0 }

/-- The power of ten of the first digit of a positive rational. -/
def leadingExponent (num den : Nat) : Int :=
  if den ≤ num then ((Nat.toDigits 10 (num / den)).length : Int) - 1
  else -((Nat.toDigits 10 ((den + num - 1) / num - 1)).length : Int)

/-- Whether `n · 10 ^ exponent` lies in the interval. -/
def Target.admits (t : Target) (n : Nat) (exponent : Int) : Bool :=
  let num := n * t.denominator * Nat.pow 10 exponent.toNat
  let unit := Nat.pow 10 (-exponent).toNat
  if t.closed then t.lower * unit ≤ num && num ≤ t.upper * unit
  else t.lower * unit < num && num < t.upper * unit

/-- The neighbour of the value on the grid of multiples of `10 ^ exponent` that lies in the
interval, and of two the nearer one. -/
def Target.onGrid (t : Target) (rule : HalfRule) (exponent : Int) : Option Nat :=
  let num := t.value * Nat.pow 10 (-exponent).toNat
  let den := t.denominator * Nat.pow 10 exponent.toNat
  let floor := num / den
  let twiceRest := 2 * (num % den)
  let preferFloor := twiceRest < den || (twiceRest = den && rule = .toEven && floor % 2 = 0)
  match t.admits floor exponent, t.admits (floor + 1) exponent with
  | true, true => some (if preferFloor then floor else floor + 1)
  | true, false => some floor
  | false, true => some (floor + 1)
  | false, false => none

/-- The decimal `n · 10 ^ exponent`, without zeros at its end. -/
def ofGrid (n : Nat) (exponent : Int) : Decimal :=
  let written := Nat.toDigits 10 n
  { digits := (written.reverse.dropWhile (· = '0')).reverse
    exponent := exponent + written.length - 1 }

/-- Tries the grids from `exponent` downwards, `finer` more after the first. -/
def Target.search (t : Target) (rule : HalfRule) (exponent : Int) : Nat → Decimal
  | 0 => ofGrid ((t.onGrid rule exponent).getD 0) exponent
  | finer + 1 =>
    match t.onGrid rule exponent with
    | some n => ofGrid n exponent
    | none => t.search rule (exponent - 1) finer

/-- The shortest decimal that rounds to `m · 2 ^ q`, the nearest of these, and of two equally near
ones the one that the rule takes. -/
def shortest (rule : HalfRule) (m : Nat) (q : Int) : Decimal :=
  let t := Target.ofBinary m q
  t.search rule (leadingExponent t.value t.denominator) 8

end Decimal

end ProximityQuery
