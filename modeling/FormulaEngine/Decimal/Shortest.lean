import FormulaEngine.Decimal.Magnitude

/-! Decimals that stand for a float. The shortest decimal of a float is the one
with the fewest digits among those that read back as the float, and of several
such the nearest to it. It is found grid by grid, from one digit upwards: on the
grid of the multiples of a power of ten only the two neighbours of the float can
be nearest, so a grid is of use exactly if one of them reads back. The rounded
decimal has a given number of digits and is the nearest one of that length. -/

namespace FormulaEngine.Magnitude

/-- The reals that round to the float reach half way to its neighbours, which
lie closer below a power of two than above it. All three bounds are measured in
quarters of the unit of the last place. -/
structure Neighbourhood where
  lower : Nat
  centre : Nat
  upper : Nat
  /-- The ends belong to it: a tie is rounded to the even significand. -/
  closed : Bool

def neighbourhood (m : Magnitude) : Neighbourhood where
  lower :=
    4 * m.significand - if m.significand = Nat.pow 2 52 ∧ m.exponent ≠ -1074 then 1 else 2
  centre := 4 * m.significand
  upper := 4 * m.significand + 2
  closed := m.significand % 2 = 0

/-- The multiple of `10 ^ unit` nearest to the magnitude that reads back as it,
if one does. Half way between two of them the upper one is taken. -/
def nearestOnGrid? (m : Magnitude) (unit : Int) : Option Decimal :=
  let near := m.neighbourhood
  let scale := (Magnitude.mk 1 (m.exponent - 2)).inUnits unit
  let exact := near.centre * scale.numerator
  let below := exact / scale.denominator
  let reaches (lower upper : Nat) : Bool := lower < upper || (near.closed && lower = upper)
  let lowerFits := reaches (near.lower * scale.numerator) (below * scale.denominator)
  let upperFits := reaches ((below + 1) * scale.denominator) (near.upper * scale.numerator)
  let nearerBelow := 2 * (exact % scale.denominator) < scale.denominator
  if lowerFits && (nearerBelow || !upperFits) then some ⟨below, unit⟩
  else if upperFits then some ⟨below + 1, unit⟩
  else none

/-- The shortest decimal of a magnitude. Seventeen digits tell any two floats
apart, so the exact decimal is never needed. -/
def shortest (m : Magnitude) : Decimal :=
  if m.significand = 0 then ⟨0, 0⟩
  else ((List.range 17).findSome? fun n : Nat => m.nearestOnGrid? (m.leadingExponent - n)).getD
    m.exactDecimal

/-- The nearest decimal of `digits` digits, half way the one with the even
coefficient. A carry into a new digit is shifted back. -/
def rounded (m : Magnitude) (digits : Nat) : Decimal :=
  if m.significand = 0 then ⟨0, 1 - digits⟩
  else
    let unit := m.leadingExponent + 1 - digits
    let ⟨n, d⟩ := m.inUnits unit
    let below := n / d
    let twice := 2 * (n % d)
    let nearest := if twice < d || (twice = d && below % 2 = 0) then below else below + 1
    if nearest = Nat.pow 10 digits then ⟨Nat.pow 10 (digits - 1), unit + 1⟩ else ⟨nearest, unit⟩

end FormulaEngine.Magnitude
