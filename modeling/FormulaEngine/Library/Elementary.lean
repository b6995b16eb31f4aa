import FormulaEngine.Decimal.Magnitude
import FormulaEngine.Operator

/-! Elementary functions of floats: exact remainders, the extremes of two
numbers, lengths without overflow, and the inverse hyperbolic tangent by its
formula in terms of a logarithm. -/

namespace FormulaEngine.Elementary

def infinity : Float := 1 / 0

/-- Whether the sign bit is set, as it is for a negative zero. -/
def isNegative (x : Float) : Bool := Nat.pow 2 63 ≤ x.toBits.toNat

/-- The absolute value of one number with the sign of another. -/
def withSignOf (sign x : Float) : Float := if isNegative sign then -x.abs else x.abs

/-- A whole number times a power of two. -/
def scaled (significand : Nat) (exponent : Int) : Float :=
  (Float.ofNat significand).scaleB exponent

/-- The remainder of a division whose quotient is rounded towards zero. It is
exact: both magnitudes are whole multiples of the smaller of their last places,
and so is the remainder, which needs no more digits than they have. It has the
sign of the dividend. -/
def remainder (x y : Float) : Float :=
  if x.isNaN || y.isNaN || x.isInf || y == 0 then nan
  else if y.isInf then x
  else
    let a := Magnitude.ofFloat x
    let b := Magnitude.ofFloat y
    let place := min a.exponent b.exponent
    let rest := (a.significand * Nat.pow 2 (a.exponent - place).toNat) %
      (b.significand * Nat.pow 2 (b.exponent - place).toNat)
    withSignOf x (scaled rest place)

/-- The smaller number. A NaN counts as missing. -/
def smaller (x y : Float) : Float :=
  if x.isNaN then y else if y.isNaN then x else if x < y then x else y

/-- The larger number. A NaN counts as missing. -/
def larger (x y : Float) : Float :=
  if x.isNaN then y else if y.isNaN then x else if x < y then y else x

/-- A square as the sum of its rounded value and the rounding error. The number
is split into two halves whose products are exact. -/
def squareWithError (x : Float) : Float × Float :=
  let spread := x * 134217729
  let high := x - spread + spread
  let low := x - high
  let square := x * x
  (square, high * high - square + 2 * high * low + low * low)

/-- The length of the hypotenuse over two sides. Sides far from one are scaled
by a power of two first, so that no square overflows or vanishes, and a side that
is too short to matter is added as it is. An infinite side wins over a NaN. -/
def hypotenuse (x y : Float) : Float :=
  let x := x.abs
  let y := y.abs
  if x.isInf || y.isInf then infinity
  else if x.isNaN || y.isNaN then nan
  else
    let long := larger x y
    let short := smaller x y
    if short == 0 then long
    else
      let exponent (z : Float) : Nat := z.toBits.toNat / Nat.pow 2 52
      if exponent short + 64 < exponent long then long + short
      else
        let root (p q : Float) : Float :=
          let (p2, pError) := squareWithError p
          let (q2, qError) := squareWithError q
          (qError + pError + q2 + p2).sqrt
        let up : Float := scaled 1 700
        let down : Float := scaled 1 (-700)
        if 1023 + 510 < exponent long then up * root (long * down) (short * down)
        else if exponent short < 1023 - 450 then down * root (long * up) (short * up)
        else root long short

/-- The logarithm of `1 + x`, accurate for small `x`: what rounding took from the
sum is added to the logarithm again, to first order. Below minus one there is no
logarithm. -/
def logOnePlus (x : Float) : Float :=
  let sum := 1 + x
  let lost := x - (sum - 1)
  if sum == 1 then x
  else if sum == 0 || sum.isInf then sum.log
  else sum.log + lost / sum

/-- The area of the hyperbolic tangent. Towards minus one the quotient comes close
to minus one as well, and loses digits there that it keeps towards one. -/
def artanh (x : Float) : Float := 0.5 * logOnePlus (2 * x / (1 - x))

end FormulaEngine.Elementary
