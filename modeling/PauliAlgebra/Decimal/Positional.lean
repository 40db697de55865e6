import PauliAlgebra.Decimal.Shortest

/-!
# Positional notation

Numbers are written without an exponent, however long that makes them. A number
without a fractional part is written without a point.
-/

namespace PauliAlgebra

/-- A decimal in positional notation. -/
def Decimal.text (number : Decimal) : String :=
  let digits := Nat.toDigits 10 number.digits
  if 0 ≤ number.exponent then
    .ofList (digits ++ List.replicate number.exponent.toNat '0')
  else
    let places := (-number.exponent).toNat
    let padded := List.replicate (places + 1 - digits.length) '0' ++ digits
    let whole := padded.length - places
    .ofList (padded.take whole ++ '.' :: padded.drop whole)

namespace Binary64

/-- The text of the size of a float, its sign left out. -/
def magnitudeText (number : Float) : String :=
  if number.isNaN then "NaN"
  else if number.isInf then "inf"
  else (shortest number).text

/-- Whether the sign bit of a float is set. A NaN has no sign. -/
def isNegative (number : Float) : Bool :=
  match number.toModel.unpack with
  | .infinity .negative | .zero .negative | .finite .negative _ _ _ => true
  | _ => false

/-- The text of a float. Zeros keep their sign. -/
def text (number : Float) : String :=
  (if isNegative number then "-" else "") ++ magnitudeText number

end Binary64

end PauliAlgebra
