/-!
# Single-precision numbers as exact values

A single-precision number is a signed zero, a signed infinity, no number at all, or a sign with a
positive integer times a power of two. `Binary32.ofFloat32` reads that off the thirty-two bits.
-/

namespace ProximityQuery

/-- What a single-precision number stands for. -/
inductive Binary32
  | nan
  | infinite (negative : Bool)
  | zero (negative : Bool)
  /-- The number `± mantissa · 2 ^ exponent`; `mantissa` is below `2 ^ 24`. -/
  | finite (negative : Bool) (mantissa : Nat) (exponent : Int)
deriving DecidableEq, Repr

/-- The value of a single-precision number, from its sign bit, exponent field and fraction field. -/
def Binary32.ofFloat32 (x : Float32) : Binary32 :=
  let bits := x.toBits.toNat
  let negative : Bool := 0x80000000 ≤ bits
  let field : Nat := bits / 0x800000 % 0x100
  let fraction : Nat := bits % 0x800000
  if field = 255 then
    if fraction = 0 then .infinite negative else .nan
  else if field = 0 then
    if fraction = 0 then .zero negative else .finite negative fraction (-149)
  else
    .finite negative (0x800000 + fraction) ((field : Int) - 150)

/-- Whether a single-precision number is neither infinite nor undefined. -/
def Binary32.isFinite : Binary32 → Bool
  | .zero _ | .finite .. => true
  | .nan | .infinite _ => false

end ProximityQuery
