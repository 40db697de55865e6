import PauliAlgebra.Coefficient.Cartesian

/-!
# Comparing coefficients up to a tolerance

Two numbers are close if they are equal, or if their distance is within an
absolute bound, or within a bound relative to the larger of them. An infinity is
close to itself only.
-/

namespace PauliAlgebra

universe u

/-- How far apart two numbers may be and still count as equal. -/
structure Tolerance (R : Type u) where
  /-- The distance that is always allowed. -/
  absolute : R
  /-- The distance that is allowed for each unit of the larger number. -/
  relative : R

/-- The tolerance of operator equality. -/
def Tolerance.standard : Tolerance Float := ⟨1e-12, 1e-9⟩

/-- Numbers with a size. -/
class Magnitude (R : Type u) where
  abs : R → R
  isInfinite : R → Bool

instance : Magnitude Float := ⟨Float.abs, Float.isInf⟩

section Closeness

variable {R : Type u} [Sub R] [Mul R] [BEq R] [LE R] [LT R] [DecidableLE R] [DecidableLT R]
  [Magnitude R]

/-- The larger of two numbers in size. -/
def largerMagnitude (left right : R) : R :=
  if Magnitude.abs left < Magnitude.abs right then Magnitude.abs right else Magnitude.abs left

/-- Whether two numbers are close. -/
def isClose (tolerance : Tolerance R) (left right : R) : Bool :=
  left == right ||
    (!Magnitude.isInfinite left && !Magnitude.isInfinite right &&
      (decide (Magnitude.abs (left - right) ≤ tolerance.absolute) ||
        decide (Magnitude.abs (left - right) ≤ largerMagnitude left right * tolerance.relative)))

/-- Whether two complex numbers are close in both parts. -/
def Cartesian.isClose (tolerance : Tolerance R) (left right : Cartesian R) : Bool :=
  PauliAlgebra.isClose tolerance left.re right.re &&
    PauliAlgebra.isClose tolerance left.im right.im

end Closeness

end PauliAlgebra
