import PauliAlgebra.Binary64.Packing

/-!
# Binary64 numbers as exact values

A finite float is a signed integer times a power of two. From that exact value
follow the natural number that a float equals and the float that is nearest to a
natural number.

The length of a vector with two float coordinates is computed in float arithmetic,
and which of two neighbouring floats comes out depends on the order of the steps:
the root of the rounded sum of squares, then one correction. Its error stays below
one unit in the last place. Long and short vectors are scaled by a power of two
first, which loses nothing, so that no square is too large or too small.
-/

namespace PauliAlgebra.Binary64

/-- The natural number that a float equals, if there is one. Both zeros equal 0. -/
def natural? (number : Float) : Option Nat :=
  match number.toModel.unpack with
  | .zero _ => some 0
  | .finite .positive significand exponent _ =>
      if 0 ≤ exponent then
        some (significand <<< exponent.toNat)
      else
        let unit := 1 <<< (-exponent).toNat
        if significand % unit = 0 then some (significand / unit) else none
  | _ => none

/-- The float nearest to a natural number. -/
def ofNatural (number : Nat) : Float :=
  .ofModel (.ofNat number)

/-- Neither infinite nor NaN. -/
def isFinite (number : Float) : Bool :=
  number.toModel.unpack.isFinite

/-- The square root of `long * long + short * short`, where the squares are neither too
large nor too small. The rounded root `h` is moved by one step of Newton's method,
`(h * h - long * long - short * short) / (2 * h)`. The residue is not taken from the
squares, which would cancel, but from the excess of `h` over one of the two sides. -/
def correctedRoot (long short : Float) : Float :=
  let root := (long * long + short * short).sqrt
  let residue :=
    if root ≤ 2 * short then
      let excess := root - short
      long * (2 * excess - long) + (excess - 2 * (long - short)) * excess
    else
      let excess := root - long
      2 * excess * (long - 2 * short) + ((4 * excess - short) * short + excess * excess)
  root - residue / (2 * root)

/-- From this ratio of two sides on, the longer one alone decides the hypotenuse. -/
def sideRatioLimit : Float := ofNatural (1 <<< 54)

/-- A side above this one is scaled down before it is squared. -/
def longSideLimit : Float := ofNatural (1 <<< 511)

/-- A side below this one is scaled up before it is squared. -/
def shortSideLimit : Float := (1 : Float) / ofNatural (1 <<< 459)

/-- The factor by which sides are scaled. -/
def sideScale : Float := ofNatural (1 <<< 600)

/-- The hypotenuse over two finite sides of positive sign, the longer one first. -/
def hypotenuseOfSides (long short : Float) : Float :=
  if sideRatioLimit * short ≤ long then long + short
  else if longSideLimit < long then
    correctedRoot (long / sideScale) (short / sideScale) * sideScale
  else if short < shortSideLimit then
    correctedRoot (long * sideScale) (short * sideScale) / sideScale
  else correctedRoot long short

/-- The square root of the sum of two squares, to within one unit in the last place.
It is infinite as soon as one part is, even beside a NaN. -/
def hypotenuse (first second : Float) : Float :=
  if first.isInf then first.abs
  else if second.isInf then second.abs
  else if first.isNaN || second.isNaN then first + second
  else if first.abs < second.abs then hypotenuseOfSides second.abs first.abs
  else hypotenuseOfSides first.abs second.abs

end PauliAlgebra.Binary64
