import FormulaEngine.Decimal.Shortest

/-! Writing floats as text. The digits are those of the shortest decimal; a
layout says how they are set: whether a whole number keeps a point, for which
leading exponents the number is written out in full, and what a NaN is called.
Everything else is written as a mantissa with one digit before the point and an
exponent. -/

namespace FormulaEngine

structure Layout where
  /-- A whole number ends in `.0`. -/
  keepsPoint : Bool
  /-- The exponents of the leading digit that are written without an exponent. -/
  writtenOut : Int → Bool
  /-- The text of a NaN. -/
  notANumber : String

namespace Layout

/-- Numbers in tree listings: never an exponent, whole numbers without a point. -/
def plain : Layout := ⟨false, fun _ => true, "NaN"⟩

/-- Numbers in structural descriptions: always a point or an exponent, which is
used below `1e-4` and from `1e16` on. -/
def marked : Layout := ⟨true, fun e => -4 ≤ e && e < 16, "NaN"⟩

/-- A decimal without the zeros at its end: its digits, and the exponent of the
last of them. Zero has no digits. -/
def significantDigits (d : Decimal) : List Char × Int :=
  let digits := Nat.toDigits 10 d.coefficient
  let kept := (digits.reverse.dropWhile (· = '0')).reverse
  (kept, d.exponent + ((digits.length - kept.length : Nat) : Int))

def zeros (n : Nat) : List Char := List.replicate n '0'

/-- Digits written out in full around the point. -/
def writeOut (keepsPoint : Bool) (digits : List Char) (exponent : Int) : List Char :=
  let whole := digits.length + exponent
  let ending := if keepsPoint then ['.', '0'] else []
  if digits.isEmpty then '0' :: ending
  else if 0 ≤ exponent then digits ++ zeros exponent.toNat ++ ending
  else if whole ≤ 0 then ['0', '.'] ++ zeros (-whole).toNat ++ digits
  else digits.take whole.toNat ++ '.' :: digits.drop whole.toNat

/-- A mantissa with one digit before the point, and the exponent of that digit. -/
def writeScientific (digits : List Char) (leading : Int) : List Char :=
  let mantissa := match digits with
    | [] => ['0']
    | [d] => [d]
    | d :: rest => d :: '.' :: rest
  mantissa ++ 'e' :: (toString leading).toList

/-- The text of a float with its sign, given how its magnitude is written. -/
def signed (notANumber : String) (write : Magnitude → List Char) (x : Float) : String :=
  if x.isNaN then notANumber
  else
    let sign := if Nat.pow 2 63 ≤ x.toBits.toNat then "-" else ""
    sign ++ if x.isInf then "inf" else String.ofList (write (Magnitude.ofFloat x))

/-- The text of a float. -/
def text (layout : Layout) (x : Float) : String :=
  signed layout.notANumber (fun m =>
    let (digits, exponent) := significantDigits m.shortest
    let leading := digits.length + exponent - 1
    if digits.isEmpty || layout.writtenOut leading then
      writeOut layout.keepsPoint digits exponent
    else writeScientific digits leading) x

end Layout

/-- A float with exactly `digits` significant digits, always with an exponent. -/
def scientificText (digits : Nat) (x : Float) : String :=
  Layout.signed "nan" (fun m =>
    let d := m.rounded digits
    let written := Nat.toDigits 10 d.coefficient
    let padded := written ++ Layout.zeros (digits - written.length)
    Layout.writeScientific padded (d.exponent + digits - 1)) x

end FormulaEngine
