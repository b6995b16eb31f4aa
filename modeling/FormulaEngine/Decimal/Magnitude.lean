/-! The exact size of a finite float. Its absolute value is a whole significand
times a power of two, so every question about its decimal digits is a question
about natural numbers: measured in units of a power of ten it is a fraction of
two of them. -/

namespace FormulaEngine

/-- `significand * 2 ^ exponent`. -/
structure Magnitude where
  significand : Nat
  exponent : Int
  deriving DecidableEq, Repr

/-- `coefficient * 10 ^ exponent`. -/
structure Decimal where
  coefficient : Nat
  exponent : Int
  deriving DecidableEq, Repr

/-- A fraction of natural numbers, not necessarily in lowest terms. -/
structure Fraction where
  numerator : Nat
  denominator : Nat

namespace Magnitude

/-- The absolute value of a finite float, read off its bits: 52 bits of fraction
below 11 bits of exponent, with a leading one unless the exponent is zero. -/
def ofFloat (x : Float) : Magnitude :=
  let bits := x.toBits.toNat
  let fraction := bits % Nat.pow 2 52
  match bits / Nat.pow 2 52 % Nat.pow 2 11 with
  | 0 => ⟨fraction, -1074⟩
  | e + 1 => ⟨Nat.pow 2 52 + fraction, e - 1074⟩

/-- The magnitude measured in units of `10 ^ unit`. -/
def inUnits (m : Magnitude) (unit : Int) : Fraction where
  numerator := m.significand * Nat.pow 2 m.exponent.toNat * Nat.pow 10 (-unit).toNat
  denominator := Nat.pow 2 (-m.exponent).toNat * Nat.pow 10 unit.toNat

/-- The number of decimal digits of a natural number. -/
def digitCount (n : Nat) : Nat := (Nat.toDigits 10 n).length

/-- The exponent of the power of ten at or below a magnitude that is not zero. -/
def leadingExponent (m : Magnitude) : Int :=
  let ⟨n, d⟩ := m.inUnits 0
  if d ≤ n then (digitCount (n / d) : Int) - 1
  else -(digitCount ((d + n - 1) / n - 1) : Int)

/-- All decimal digits of the magnitude: a power of one half is a power of five
over a power of ten. -/
def exactDecimal (m : Magnitude) : Decimal where
  coefficient := m.significand * Nat.pow 2 m.exponent.toNat * Nat.pow 5 (-m.exponent).toNat
  exponent := -((-m.exponent).toNat : Int)

end Magnitude

end FormulaEngine
