/-!
# Decimal numerals

Numbers written with the digits 0 to 9: whole numbers, and numbers with at most one point. A
numeral with a point is read without an intermediate rounding: `Float32.ofScientific` takes the
exact value to the nearest single-precision number, halves to even, and to infinity when it is too
large.
-/

namespace ProximityQuery.Decimal

/-- The whole number that a non-empty run of digits writes, leading zeros allowed. -/
def natural? (s : List Char) : Option Nat :=
  if !s.isEmpty && s.all Char.isDigit then some (Nat.ofDigitChars 10 s 0) else none

/-- A whole number below `2 ^ 32`. -/
def uint32? (s : List Char) : Option UInt32 :=
  (natural? s).bind fun n => if n < UInt32.size then some (UInt32.ofNat n) else none

/-- Digits with at most one point and at least one digit, as the number without its point and the
number of places after it. -/
def fixedPoint? (s : List Char) : Option (Nat × Nat) :=
  let whole := s.takeWhile Char.isDigit
  match s.dropWhile Char.isDigit with
  | [] => (natural? whole).map (·, 0)
  | '.' :: places =>
    if places.all Char.isDigit then (natural? (whole ++ places)).map (·, places.length) else none
  | _ => none

/-- The single-precision number nearest to a numeral with at most one point. -/
def float32? (s : List Char) : Option Float32 :=
  (fixedPoint? s).map fun (n, places) => Float32.ofScientific n true places

/-- The digits written for a number are read back as that number. -/
theorem natural?_toDigits (n : Nat) : natural? (Nat.toDigits 10 n) = some n := by
  have hall : (Nat.toDigits 10 n).all Char.isDigit = true := by
    rw [List.all_eq_true]
    exact fun c hc => Nat.isDigit_of_mem_toDigits (by omega) (by omega) hc
  have hne : (Nat.toDigits 10 n).isEmpty = false := by
    rw [List.isEmpty_eq_false_iff]
    exact Nat.toDigits_ne_nil
  simp [natural?, hall, hne, Nat.ofDigitChars_toDigits]

end ProximityQuery.Decimal
